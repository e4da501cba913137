import Mathlib.Order.BooleanAlgebra.Set
import Xv6.InodeBlocksProofs

/-!
# `iupdate` and `itrunc` — an inode goes to the disk, and its blocks go back

`iupdate` stores the in-memory copy of an inode in its place in the inode table. `itrunc`
gives all blocks of an inode back. It frees first and clears the addresses after, so its
proof lets the ledger run ahead of the code: the addresses are cleared in the table `D` at
once, and the blocks are in transit until `bfree` has seen them. For the entries of the
indirect block there is no other way, since the code never clears them.
-/

namespace Xv6Own

open CmdProg ByteBuf Xv6Disk Xv6Kernel Xv6Fs Xv6Layout Ledger Function Set

/-! ## `iupdate` -/

/-- The disk with the dinode `d` in place `i` of the inode table. -/
def updateView (sb : Superblock) (v : Nat → Block) (i : Nat) (d : Dinode) : Nat → Block :=
  update v (IBLOCK i sb) (putDinode (v (IBLOCK i sb)) (i % IPB) d)

/-- The state after `iupdate` of the inode `i` with the copy `d`. -/
def updateState (sb : Superblock) (s : LState) (i : Nat) (d : Dinode) : LState :=
  { s with view := updateView sb s.view i d, lh := absorb s.lh (IBLOCK i sb) }

section Update

variable {sb : Superblock} {v : Nat → Block} {D : Nat → Dinode} {X : Set Nat} {i : Nat}
  {d : Dinode} {s : LState} {ip : Fin NINODE} {W : Set Nat} {N : Prop}

theorem iupdate_does (hsb : s.mem.sb = sb) (hW : IBLOCK (s.mem.icache ip).inum sb ∈ W) :
    Does W N (fun _ s' => s' = updateState sb s (s.mem.icache ip).inum (s.mem.icache ip).din) (iupdate ip) s := by
  refine does_getInode (does_getSb ?_)
  rw [hsb]
  exact does_bread fun _ => does_bstore (does_logWrite hW (does_last (does_brelse (does_pure rfl))))

theorem updateView_other {c : Nat} (hc : c ≠ IBLOCK i sb) : updateView sb v i d c = v c :=
  update_of_ne hc _ _

theorem updateView_data (hl : Layout sb) (hi : i < sb.ninodes) {c : Nat} (hc : datastart sb ≤ c) :
    updateView sb v i d c = v c :=
  updateView_other (iblock_ne_data hl hi hc).symm

/-- Nothing in the ledger is kept in the inode blocks. -/
theorem own_updateView (hl : Layout sb) (hi : i < sb.ninodes) (h : Own sb v D X) :
    Own sb (updateView sb v i d) D X := by
  refine h.congr (slots_congr (fun _ => ⟨rfl, rfl⟩) fun j hj => ?_) fun c hc => ?_
  · exact updateView_data hl hi (h.cell _ hj).1
  · exact used_update (iblock_ne_bblock hl hi c).symm _

end Update

/-! ## Blocks go back -/

/-- The state differs from `s` in the log and in the blocks of the free map only. -/
structure Frees (sb : Superblock) (s s' : LState) : Prop where
  state : s' = { s with view := s'.view, lh := s'.lh }
  rest : ∀ c, c < sb.bmapstart ∨ datastart sb ≤ c → s'.view c = s.view c

section Frees

variable {sb : Superblock} {s s' s'' : LState} {v v' : Nat → Block} {D : Nat → Dinode} {X : Set Nat}
  {i k b : Nat} {ip : Fin NINODE} {W : Set Nat} {N : Prop}

theorem Frees.refl : Frees sb s s := ⟨rfl, fun _ _ => rfl⟩

theorem Frees.trans (h1 : Frees sb s s') (h2 : Frees sb s' s'') : Frees sb s s'' := by
  refine ⟨?_, fun c hc => (h2.rest c hc).trans (h1.rest c hc)⟩
  have e2 := h2.state
  rw [h1.state] at e2
  exact e2

theorem Frees.mem (h : Frees sb s s') : s'.mem = s.mem := by rw [h.state]

theorem Frees.edit {lh : List Nat} {d : Dinode} (h : Frees sb (edit s ip v lh d) s') :
    s' = edit s ip s'.view s'.lh d := h.state

theorem frees_freeState (hb : b < sb.size) : Frees sb s (freeState sb s b) := by
  refine ⟨rfl, ?_⟩
  intro c hc
  refine freeView_other ?_
  rintro rfl
  have h1 : sb.bmapstart ≤ BBLOCK b sb := bmapstart_le_bblock b
  have h2 := bblock_lt hb
  omega

/-- The ledger depends on the data blocks and the free map only. -/
theorem slots_rest (h : Own sb v D X) (hv : ∀ c, datastart sb ≤ c → v' c = v c) : slots v' D = slots v D :=
  slots_congr (fun _ => ⟨rfl, rfl⟩) fun _ hj => hv _ (h.cell _ hj).1

theorem own_freeView (h : Own sb v D X) (hb : b ∈ X) : Own sb (freeView sb v b) D (X \ {b}) := by
  have hsize := (h.transit b hb).2.1
  refine (h.free hb fun c _ => used_freeView c).congr (slots_rest h fun c hc => ?_) fun _ _ => rfl
  exact freeView_other fun heq => bblock_ne_data hsize hc heq.symm

/-- **`bfree`** of a block in transit. -/
theorem bfree_own_does {a : UInt32} (hsb : s.mem.sb = sb) (hdisk : getSuperblock (s.view 1) = sb)
    (h : Own sb s.view D X) (ha : a.toNat ∈ X) (hW : ∀ b, b < sb.size → BBLOCK b sb ∈ W) :
    Does W N (fun _ s' => Frees sb s s' ∧ Own sb s'.view D (X \ {a.toNat})) (bfree a) s := by
  have hsize := (h.transit _ ha).2.1
  refine does_mono (bfree_does hsb hdisk (hW _ hsize)) ?_
  rintro _ _ rfl
  exact ⟨frees_freeState hsize, own_freeView h ha⟩

theorem one_lt_bmapstart (hl : Layout sb) : 1 < sb.bmapstart := by
  have h1 := two_le_inodestart hl
  have h2 := inodestart_lt_bmapstart hl
  omega

theorem Frees.superblock (hl : Layout sb) (h : Frees sb s s') : s'.view 1 = s.view 1 :=
  h.rest 1 (.inl (one_lt_bmapstart hl))

end Frees

/-! ## `itrunc` -/

section Itrunc

variable {sb : Superblock} {s : LState} {v : Nat → Block} {D : Nat → Dinode} {X : Set Nat}
  {i k : Nat} {ip : Fin NINODE} {W : Set Nat} {N : Prop}

/-- The address of a direct block is cleared; the block is in transit. -/
theorem own_clear_address (h : Own sb v D ∅) (hi : (D i).type ≠ 0) (hk : k < NDIRECT)
    (h0 : addr (D i) k ≠ 0) : Own sb v (update D i (setAddr (D i) k 0)) {(addr (D i) k).toNat} := by
  have hA : slots v (update D i (setAddr (D i) k 0)) = update (slots v D) (i, k) 0 :=
    slots_update (d := setAddr (D i) k 0) hi hi (slotAddr_setAddr hk) fun _ _ _ => rfl
  have hslot : slots v D (i, k) = (addr (D i) k).toNat := by
    rw [slots_direct hi (by omega)]
  have hcleared : ∀ y, slots v (update D i (setAddr (D i) k 0)) y = slots v D y ∨
      slots v (update D i (setAddr (D i) k 0)) y = 0 := by
    intro y
    rw [hA, update_apply]
    split_ifs with hy
    · exact .inr rfl
    · exact .inl rfl
  have hcl := h.clear hcleared
  have hset : (∅ ∪ {c | c ≠ 0 ∧ ∃ y, slots v D y = c ∧ slots v (update D i (setAddr (D i) k 0)) y = 0} : Set Nat)
      = {(addr (D i) k).toNat} := by
    ext c
    rw [empty_union, mem_ofPred_eq, mem_singleton_iff]
    constructor
    · rintro ⟨hc0, y, hy, hy'⟩
      by_cases hyk : y = (i, k)
      · rw [← hy, hyk, hslot]
      · rw [hA, update_of_ne hyk, hy] at hy'
        exact absurd hy' hc0
    · rintro rfl
      refine ⟨fun hz => h0 (UInt32.toNat.inj hz), (i, k), hslot, ?_⟩
      rw [hA, update_self]
  rw [hset] at hcl
  exact hcl

/-- The direct blocks go back. -/
theorem itruncDirect_does (hl : Layout sb) (hW : ∀ b, b < sb.size → BBLOCK b sb ∈ W) :
    ∀ (r k : Nat) (s : LState) (D : Nat → Dinode), k + r = NDIRECT → s.mem.sb = sb →
    getSuperblock (s.view 1) = sb → Own sb s.view D ∅ → D i = (s.mem.icache ip).din →
    (D i).type ≠ 0 → (∀ m, m < k → addr (D i) m = 0) →
    Does W N (fun _ s' => ∃ a, (∀ m, m < NDIRECT → addr { D i with addrs := a } m = 0) ∧
      addr { D i with addrs := a } NDIRECT = addr (D i) NDIRECT ∧
      Frees sb (edit s ip s.view s.lh { D i with addrs := a }) s' ∧
      Own sb s'.view (update D i { D i with addrs := a }) ∅) (itruncDirect ip r k) s := by
  intro r
  induction r with
  | zero =>
    intro k s D hk hsb hdisk h hdin hi hzero
    refine does_pure ⟨(D i).addrs, fun m hm => hzero m (by omega), rfl, ?_, ?_⟩
    · rw [show { D i with addrs := (D i).addrs } = (s.mem.icache ip).din from hdin, edit_self]
      exact Frees.refl
    · rw [show { D i with addrs := (D i).addrs } = D i from rfl, update_eq_self]
      exact h
  | succ r ih =>
    intro k s D hk hsb hdisk h hdin hi hzero
    refine does_getInode ?_
    rw [← hdin]
    split_ifs with h0
    · refine ih (k + 1) s D (by omega) hsb hdisk h hdin hi ?_
      intro m hm
      by_cases hmk : m = k
      · rw [hmk]; exact h0
      · exact hzero m (by omega)
    · have hclear := own_clear_address h hi (by omega : k < NDIRECT) h0
      refine does_seq (bfree_own_does hsb hdisk hclear rfl hW) ?_
      rintro _ s1 ⟨hfree, hown⟩
      rw [sdiff_self] at hown
      refine does_modDin ?_
      have hmem := hfree.mem
      have hdin1 : (s1.mem.icache ip).din = D i := by rw [hmem, hdin]
      rw [hdin1]
      -- the copy in memory now agrees with the table the ledger is about
      have hset : update D i (setAddr (D i) k 0) i = setAddr (D i) k 0 :=
        update_self _ _ _
      refine does_mono (ih (k + 1)
        (setInode s1 ip { s1.mem.icache ip with din := setAddr (D i) k 0 })
        (update D i (setAddr (D i) k 0)) (by omega) ?_ ?_ hown ?_ ?_ ?_) ?_
      · rw [setInode_sb, hmem]; exact hsb
      · rw [setInode_view, hfree.superblock hl]; exact hdisk
      · rw [hset, setInode_icache, update_self]
      · rw [hset]; exact hi
      · intro m hm
        rw [hset, addr_setAddr (by omega) (by omega)]
        split_ifs with hmk
        · rfl
        · exact hzero m (by omega)
      · rintro _ s' ⟨a, h1, h2, h3, h4⟩
        rw [hset] at h1 h2 h3 h4
        rw [update_idem] at h4
        refine ⟨a, h1, ?_, ?_, h4⟩
        · rw [addr_setAddr (by omega) (by omega), if_neg (by omega)] at h2
          exact h2
        · refine Frees.trans ?_ h3
          refine ⟨?_, hfree.rest⟩
          rw [hfree.state]
          simp only [edit, setInode, update_self, update_idem]
          rfl

/-- The entries of the indirect block `d` from `j` on go back. -/
theorem itruncEntries_does (hl : Layout sb) {d : Block} (hW : ∀ b, b < sb.size → BBLOCK b sb ∈ W)
    (honce : ∀ m m', getAddr d m ≠ 0 → getAddr d m = getAddr d m' → m < NINDIRECT → m' < NINDIRECT → m = m') :
    ∀ (r j : Nat) (s : LState) (X : Set Nat), j + r = NINDIRECT → s.mem.sb = sb →
    getSuperblock (s.view 1) = sb → Own sb s.view D X →
    (∀ m, j ≤ m → m < NINDIRECT → getAddr d m ≠ 0 → (getAddr d m).toNat ∈ X) →
    Does W N (fun _ s' => Frees sb s s' ∧ Own sb s'.view D
      (X \ {b | ∃ m, j ≤ m ∧ m < NINDIRECT ∧ getAddr d m ≠ 0 ∧ b = (getAddr d m).toNat})) (itruncEntries d r j) s := by
  intro r
  induction r with
  | zero =>
    intro j s X hj hsb hdisk h hX
    refine does_pure ⟨Frees.refl, ?_⟩
    have hset : X \ {b | ∃ m, j ≤ m ∧ m < NINDIRECT ∧ getAddr d m ≠ 0 ∧ b = (getAddr d m).toNat} = X := by
      refine ext fun b => ⟨fun hb => hb.1, fun hb => ⟨hb, ?_⟩⟩
      rintro ⟨m, h1, h2, _⟩
      omega
    rw [hset]
    exact h
  | succ r ih =>
    intro j s X hj hsb hdisk h hX
    rw [itruncEntries]
    split_ifs with h0
    · refine does_mono (ih (j + 1) s X (by omega) hsb hdisk h fun m hm => hX m (by omega)) ?_
      rintro _ s' ⟨h1, h2⟩
      refine ⟨h1, ?_⟩
      convert h2 using 2
      ext b
      constructor
      · rintro ⟨m, h1, h2, h3, h4⟩
        refine ⟨m, ?_, h2, h3, h4⟩
        rcases lt_or_eq_of_le h1 with hlt | rfl
        · exact hlt
        · exact absurd h0 h3
      · rintro ⟨m, h1, h2⟩
        exact ⟨m, by omega, h2⟩
    · refine does_seq (bfree_own_does hsb hdisk h (hX j (le_refl _) (by omega) h0) hW) ?_
      rintro _ s1 ⟨hfree, hown⟩
      refine does_mono (ih (j + 1) s1 _ (by omega) (by rw [hfree.mem]; exact hsb)
        (by rw [hfree.superblock hl]; exact hdisk) hown ?_) ?_
      · intro m hm hlt hne
        refine ⟨hX m (by omega) hlt hne, ?_⟩
        intro heq
        have := honce m j hne (UInt32.toNat.inj heq) hlt (by omega)
        omega
      · rintro _ s' ⟨h1, h2⟩
        refine ⟨hfree.trans h1, ?_⟩
        convert h2 using 1
        ext b
        constructor
        · rintro ⟨hb, hno⟩
          refine ⟨⟨hb, fun heq => hno ⟨j, le_refl _, by omega, h0, heq⟩⟩, ?_⟩
          rintro ⟨m, h1, h2⟩
          exact hno ⟨m, by omega, h2⟩
        · rintro ⟨⟨hb, hne⟩, hno⟩
          refine ⟨hb, ?_⟩
          rintro ⟨m, h1, h2, h3, h4⟩
          rcases lt_or_eq_of_le h1 with hlt | rfl
          · exact hno ⟨m, hlt, h2, h3, h4⟩
          · exact hne h4

/-- The address of the indirect block is cleared; the block and its entries are in transit. -/
theorem own_clear_indirect (h : Own sb v D ∅) (hi : (D i).type ≠ 0) : Own sb v (update D i (setAddr (D i) NDIRECT 0))
      {c | c ≠ 0 ∧ ∃ m, NDIRECT ≤ m ∧ slotAddr v (D i) m = c} := by
  have hself : ∀ m, slots v (update D i (setAddr (D i) NDIRECT 0)) (i, m)
      = if m < NDIRECT then slots v D (i, m) else 0 := by
    intro m
    have htype : (update D i (setAddr (D i) NDIRECT 0) i).type ≠ 0 := by
      rw [update_self]; exact hi
    rw [slots_of_type htype, update_self, slotAddr_clearIndirect, slots_of_type hi]
  have hother : ∀ j m, j ≠ i → slots v (update D i (setAddr (D i) NDIRECT 0)) (j, m) = slots v D (j, m) := by
    intro j m hj
    rw [slots, slots, update_of_ne hj]
  have hcleared : ∀ y, slots v (update D i (setAddr (D i) NDIRECT 0)) y = slots v D y ∨
      slots v (update D i (setAddr (D i) NDIRECT 0)) y = 0 := by
    rintro ⟨j, m⟩
    by_cases hj : j = i
    · subst hj
      rw [hself]
      split_ifs with hm
      · exact .inl rfl
      · exact .inr rfl
    · exact .inl (hother j m hj)
  have hcl := h.clear hcleared
  show Balanced _ _ _ _ _
  convert hcl using 1
  ext c
  rw [empty_union, mem_ofPred_eq, mem_ofPred_eq]
  constructor
  · rintro ⟨hc0, m, hm, hc⟩
    refine ⟨hc0, (i, m), by rw [slots_of_type hi, hc], ?_⟩
    rw [hself, if_neg (by omega)]
  · rintro ⟨hc0, ⟨j, m⟩, hc, hz⟩
    by_cases hj : j = i
    · subst hj
      rw [hself] at hz
      by_cases hm : m < NDIRECT
      · rw [if_pos hm, hc] at hz
        exact absurd hz hc0
      · exact ⟨hc0, m, by omega, by rw [← slots_of_type hi, hc]⟩
    · rw [hother j m hj, hc] at hz
      exact absurd hz hc0

/-- The indirect block and its entries go back. -/
theorem itruncIndirect_does (hl : Layout sb) (hsb : s.mem.sb = sb)
    (hdisk : getSuperblock (s.view 1) = sb) (h : Own sb s.view D ∅)
    (hdin : D i = (s.mem.icache ip).din) (hi : (D i).type ≠ 0) (hW : ∀ b, b < sb.size → BBLOCK b sb ∈ W) :
    Does W N (fun _ s' => Frees sb (edit s ip s.view s.lh (setAddr (D i) NDIRECT 0)) s' ∧
      Own sb s'.view (update D i (setAddr (D i) NDIRECT 0)) ∅) (itruncIndirect ip) s := by
  have hclear := own_clear_indirect h hi
  have hind : slotAddr s.view (D i) NDIRECT = (addr (D i) NDIRECT).toNat :=
    slotAddr_direct (by omega)
  refine does_getInode ?_
  rw [← hdin]
  split_ifs with h0
  · have hsame : setAddr (D i) NDIRECT 0 = D i := by
      rw [setAddr]
      have : (D i).addrs (Fin.ofNat (NDIRECT + 1) NDIRECT) = 0 := h0
      rw [← this, update_eq_self]
    rw [hsame, update_eq_self]
    refine does_pure ⟨?_, h⟩
    rw [hdin, edit_self]
    exact Frees.refl
  · have hne : (addr (D i) NDIRECT).toNat ≠ 0 := fun hz => h0 (UInt32.toNat.inj hz)
    have hentry : ∀ m, m < NINDIRECT → slotAddr s.view (D i) (NDIRECT + 1 + m)
          = (getAddr (s.view (addr (D i) NDIRECT).toNat) m).toNat :=
      fun m hm => slotAddr_entry hm h0
    refine does_bread fun _ => ?_
    refine does_seq (itruncEntries_does hl hW ?_ NINDIRECT 0 s _ (by omega) hsb hdisk hclear ?_) ?_
    · intro m m' hm0 heq hm hm'
      have hslot : slots s.view D (i, NDIRECT + 1 + m) = slots s.view D (i, NDIRECT + 1 + m') := by
        rw [slots_of_type hi, slots_of_type hi, hentry m hm, hentry m' hm', heq]
      have hz : slots s.view D (i, NDIRECT + 1 + m) ≠ 0 := by
        rw [slots_of_type hi, hentry m hm]
        exact fun hz => hm0 (UInt32.toNat.inj hz)
      have := (Prod.mk.inj (h.once _ _ hz hslot)).2
      omega
    · intro m _ hm hm0
      exact ⟨fun hz => hm0 (UInt32.toNat.inj hz), NDIRECT + 1 + m, by omega, hentry m hm⟩
    · rintro _ s1 ⟨hfree1, hown1⟩
      refine does_brelse ?_
      have hmem1 := hfree1.mem
      refine does_seq (bfree_own_does (by rw [hmem1]; exact hsb)
        (by rw [hfree1.superblock hl]; exact hdisk) hown1 ⟨⟨hne, NDIRECT, le_refl _, hind⟩, ?_⟩ hW) ?_
      · -- the indirect block is none of its own entries
        rintro ⟨m, _, hm, _, heq⟩
        have hslot : slots s.view D (i, NDIRECT) = slots s.view D (i, NDIRECT + 1 + m) := by
          rw [slots_of_type hi, slots_of_type hi, hentry m hm, hind]
          exact heq
        have hz : slots s.view D (i, NDIRECT) ≠ 0 := by rw [slots_of_type hi, hind]; exact hne
        have := (Prod.mk.inj (h.once _ _ hz hslot)).2
        omega
      · rintro _ s2 ⟨hfree2, hown2⟩
        refine does_last (does_modDin (does_pure ⟨?_, ?_⟩))
        · have hfree := hfree1.trans hfree2
          refine ⟨?_, hfree.rest⟩
          have hst := hfree.state
          rw [hfree.mem, ← hdin, hst]
          rfl
        · show Own sb s2.view _ ∅
          convert hown2 using 1
          refine (eq_empty_iff_forall_notMem.mpr ?_).symm
          rintro c ⟨⟨⟨hc0, m, hm, hc⟩, hno⟩, hne'⟩
          rcases lt_or_eq_of_le hm with hlt | rfl
          · -- a cell of a slot past the indirect block is one of its entries
            obtain ⟨j, rfl⟩ : ∃ j, m = NDIRECT + 1 + j := ⟨m - (NDIRECT + 1), by omega⟩
            by_cases hj : j < NINDIRECT
            · rw [hentry j hj] at hc
              exact hno ⟨j, Nat.zero_le _, hj, fun hz => hc0 (by rw [← hc, hz]; rfl), hc.symm⟩
            · rw [slotAddr, if_neg (by omega), if_neg (fun h => hj (by omega))] at hc
              exact hc0 hc.symm
          · exact hne' (hc.symm.trans hind)

/-- The inode after `itrunc`. -/
def truncated (d : Dinode) : Dinode := { d with size := 0, addrs := fun _ => 0 }

/-- **`itrunc`** leaves the inode without blocks, on disk and in memory, and the ledger
    balanced. -/
theorem itrunc_does (hl : Layout sb) (hsb : s.mem.sb = sb)
    (hdisk : getSuperblock (s.view 1) = sb) (h : Own sb s.view D ∅)
    (hdin : D i = (s.mem.icache ip).din) (hinum : (s.mem.icache ip).inum = i)
    (hi : (D i).type ≠ 0) (h1 : 1 ≤ i) (h2 : i < sb.ninodes)
    (hW : ∀ b, b < sb.size → BBLOCK b sb ∈ W) (hWi : IBLOCK i sb ∈ W) :
    Does W N (fun _ s' => s' = edit s ip s'.view s'.lh (truncated (D i)) ∧
      Own sb s'.view (update D i (truncated (D i))) ∅ ∧ dino sb s'.view = update (dino sb s.view) i (truncated (D i)) ∧
      s'.view 1 = s.view 1 ∧ ∀ c, datastart sb ≤ c → s'.view c = s.view c) (itrunc ip) s := by
  refine does_seq (itruncDirect_does hl hW NDIRECT 0 s D (by omega) hsb hdisk h hdin hi
    fun m hm => absurd hm (Nat.not_lt_zero m)) ?_
  rintro _ s1 ⟨a, ha, hn, hfree1, hown1⟩
  have hmem1 := hfree1.mem
  have hd1 : update D i { D i with addrs := a } i = { D i with addrs := a } :=
    update_self _ _ _
  refine does_seq (itruncIndirect_does hl (by rw [hmem1]; exact hsb)
    (by rw [hfree1.superblock hl]; exact hdisk) hown1 (i := i) (by
      rw [hd1, hmem1, edit_inode]) (by rw [hd1]; exact hi) hW) ?_
  rintro _ s2 ⟨hfree2, hown2⟩
  rw [hd1, update_idem] at hown2
  rw [hd1] at hfree2
  have hempty : (setAddr { D i with addrs := a } NDIRECT 0).addrs = fun _ => 0 := by
    funext m
    have hm : m.val < NDIRECT + 1 := m.isLt
    have hof : Fin.ofNat (NDIRECT + 1) m.val = m := Fin.ext (Nat.mod_eq_of_lt hm)
    have : addr (setAddr { D i with addrs := a } NDIRECT 0) m.val = 0 := by
      rw [addr_setAddr (by omega) hm]
      split_ifs with hmn
      · rfl
      · exact ha _ (by omega)
    rw [addr, hof] at this
    exact this
  have hmem2 := hfree2.mem
  have hdin2 : (s2.mem.icache ip).din = setAddr { D i with addrs := a } NDIRECT 0 := by
    rw [hmem2, edit_inode]
  have htrunc : { (s2.mem.icache ip).din with size := 0 } = truncated (D i) := by
    rw [hdin2, truncated]
    show Dinode.mk _ _ _ _ _ _ _ = Dinode.mk _ _ _ _ _ _ _
    rw [hempty]
    rfl
  have hrest : ∀ c, c < sb.bmapstart ∨ datastart sb ≤ c → s2.view c = s.view c :=
    fun c hc => (hfree2.rest c hc).trans (hfree1.rest c hc)
  have hstate : s2 = edit s ip s2.view s2.lh (setAddr { D i with addrs := a } NDIRECT 0) := by
    have e2 := hfree2.edit
    rw [hfree1.edit, edit_edit] at e2
    exact e2
  have hset : setInode s2 ip { s2.mem.icache ip with din := truncated (D i) }
      = edit s ip s2.view s2.lh (truncated (D i)) := by
    conv_lhs => rw [hstate]
    exact setInode_edit _ _ _ _ _ _
  have hinode : ((edit s ip s2.view s2.lh (truncated (D i))).mem.icache ip).inum = i ∧
      ((edit s ip s2.view s2.lh (truncated (D i))).mem.icache ip).din = truncated (D i) := by
    rw [edit_inode]
    exact ⟨hinum, rfl⟩
  refine does_modDin ?_
  rw [htrunc, hset]
  refine does_mono (iupdate_does hsb (by rw [hinode.1]; exact hWi)) ?_
  · rintro _ s' rfl
    rw [hinode.1, hinode.2]
    refine ⟨rfl, ?_, ?_, ?_, ?_⟩
    · refine own_updateView hl h2 (hown2.congr (slots_congr ?_ fun _ _ => rfl) fun _ _ => rfl)
      intro j
      by_cases hj : j = i
      · subst hj
        rw [update_self, update_self, hempty]
        exact ⟨rfl, rfl⟩
      · rw [update_of_ne hj, update_of_ne hj]
        exact ⟨rfl, rfl⟩
    · have htable : dino sb s2.view = dino sb s.view :=
        dino_congr fun j hj => hrest _ (.inl (iblock_lt hl hj))
      rw [← htable]
      exact dino_putDinode h1 h2 _
    · have hne : 1 ≠ IBLOCK i sb := by
        have h3 := two_le_inodestart hl
        have h4 : sb.inodestart ≤ IBLOCK i sb := inodestart_le_iblock i
        omega
      exact (updateView_other hne).trans (hrest 1 (.inl (one_lt_bmapstart hl)))
    · intro c hc
      exact (updateView_data hl h2 hc).trans (hrest c (.inr hc))

end Itrunc

end Xv6Own
