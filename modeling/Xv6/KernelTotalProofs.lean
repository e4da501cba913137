import Mathlib.Data.Finset.Card
import Mathlib.Data.Finset.Union
import Xv6.NodeTableProofs

/-!
# Code that comes to its end

`Does` says what holds **if** the code finishes. The file-system code can also stop: at a block that is
not on the disk, at a full log, at a `panic`. `Ends I p s` says that `p` finishes from `s` if the log is in
order, and leaves it so; `I` is what "in order" means, and `Keeps W I` that it lasts as long as only
blocks of `W` are logged. For a transaction that is `Begun V`: the log has room for the blocks `V` beside
what it holds already. Code that logs nothing needs no transaction. What the code has done when it
finishes is left to `Does`: the rule for sequences takes both.
-/

namespace Xv6Total

open CmdProg ByteBuf Xv6Disk Xv6Kernel Xv6Fs Xv6Layout Xv6Own Ledger Function List

/-- A transaction that may log the blocks `V`: it has logged no others, and there are not too many. -/
structure Begun (V : Finset Nat) (s : LState) : Prop where
  outstanding : 1 ≤ s.outstanding
  once : s.lh.Nodup
  within : ∀ b ∈ s.lh, b ∈ V
  header : V.card < LOGSIZE
  space : V.card + 1 < s.logSize

/-- `I` is about the log, and lasts as long as only blocks of `W` are logged. -/
structure Keeps (W : Set Nat) (I : LState → Prop) : Prop where
  log : ∀ s b, b ∈ W → I s → exec (logWrite b) s = .done () (log s b) ∧ I (log s b)
  same : ∀ s s', s'.lh = s.lh → s'.outstanding = s.outstanding → s'.logSize = s.logSize → I s → I s'

/-- The code finishes, and `I` holds again. -/
def Ends {α : Type} (I : LState → Prop) (p : K α) (s : LState) : Prop :=
  I s → ∃ a s', exec p s = .done a s' ∧ I s'

section Transaction

variable {V : Finset Nat} {s : LState} {b : Nat}

theorem Begun.length_le (h : Begun V s) : s.lh.length ≤ V.card := by
  rw [← toFinset_card_of_nodup h.once]
  exact Finset.card_le_card fun c hc => h.within c (mem_toFinset.mp hc)

theorem absorb_nodup {l : List Nat} (h : l.Nodup) : (absorb l b).Nodup := by
  rw [absorb]
  split_ifs with hb
  · exact h
  · exact nodup_append.mpr ⟨h, nodup_singleton b, fun x hx y hy => by
      rw [mem_singleton.mp hy]
      exact fun heq => hb (heq ▸ hx)⟩

/-- There is room for one more block, whichever it is. -/
theorem Begun.exec_logWrite (h : Begun V s) (b : Nat) : exec (logWrite b) s = .done () (log s b) := by
  have hlen := h.length_le
  have hheader := h.header
  have hspace := h.space
  show (Prog.cmd (Cmd.logWrite b)).run lstep s = _
  rw [run_single]
  show (if LOGSIZE ≤ s.lh.length ∨ (s.logSize : Int) - 1 ≤ s.lh.length then
      Out.stop (Stop.panic "too big a transaction") s
    else if s.outstanding < 1 then Out.stop (Stop.panic "log_write outside of trans") s
    else Out.done () { s with lh := absorb s.lh b }) = _
  rw [if_neg (by omega), if_neg (Int.not_lt.mpr h.outstanding)]
  rfl

theorem Begun.same {s' : LState} (h : Begun V s) (h1 : s'.lh = s.lh) (h2 : s'.outstanding = s.outstanding)
    (h3 : s'.logSize = s.logSize) : Begun V s' :=
  ⟨h2 ▸ h.outstanding, h1 ▸ h.once, h1 ▸ h.within, h.header, h3 ▸ h.space⟩

/-- A transaction logs blocks of `V`. -/
theorem keeps_begun (V : Finset Nat) : Keeps ↑V (Begun V) where
  log := by
    intro s b hb h
    refine ⟨h.exec_logWrite b, h.outstanding, absorb_nodup h.once, ?_, h.header, h.space⟩
    intro c hc
    rcases mem_absorb.mp hc with hc | hc
    · exact h.within c hc
    · exact hc ▸ hb
  same := fun _ _ h1 h2 h3 h => h.same h1 h2 h3

/-- Code that logs nothing. -/
theorem keeps_none : Keeps ∅ fun _ => True where
  log := fun _ _ hb _ => hb.elim
  same := fun _ _ _ _ _ h => h

end Transaction

section Rules

variable {α β : Type} {W : Set Nat} {I : LState → Prop} {N : Prop} {s : LState} {b : Nat} {d : Block}
  {k : Fin NINODE}

theorem ends_pure {a : β} : Ends I (pure a) s := fun h => ⟨a, s, rfl, h⟩

/-- **The rule for sequences.** -/
theorem ends_seq {R : α → LState → Prop} {p : K α} {f : α → K β} (hp : Ends I p s) (hd : Does W N R p s)
    (hf : ∀ a s', R a s' → Ends I (f a) s') : Ends I (p >>= f) s := by
  intro h
  obtain ⟨a, s1, hr, h1⟩ := hp h
  obtain ⟨c, s2, hr2, h2⟩ := hf a s1 (does_exec hd hr) h1
  exact ⟨c, s2, exec_bind_done.mpr ⟨a, s1, hr, hr2⟩, h2⟩

/-- Code in last position. -/
theorem ends_last {p : K β} (h : Ends I (p >>= pure) s) : Ends I p s := by
  intro hr
  obtain ⟨a, s', hx, h'⟩ := h hr
  obtain ⟨c, s1, h1, h2⟩ := exec_bind_done.mp hx
  cases h2
  exact ⟨_, _, h1, h'⟩

theorem ends_bread {f : Block → K β} (hb : b < FSSIZE) (h : Ends I (f (s.view b)) s) : Ends I (bread b >>= f) s := by
  intro hr
  obtain ⟨a, s', hx, h'⟩ := h hr
  exact ⟨a, s', exec_bind_done.mpr ⟨_, s, exec_bread_done.mpr ⟨hb, rfl, rfl⟩, hx⟩, h'⟩

theorem ends_bstore (hk : Keeps W I) {f : Unit → K β} (h : Ends I (f ()) (put s b d)) : Ends I (bstore b d >>= f) s :=
  fun hr => h (hk.same s _ rfl rfl rfl hr)

theorem ends_logWrite (hk : Keeps W I) {f : Unit → K β} (hb : b ∈ W) (h : Ends I (f ()) (log s b)) :
    Ends I (logWrite b >>= f) s := by
  intro hr
  obtain ⟨hx, h1⟩ := hk.log s b hb hr
  obtain ⟨a, s', hx', h'⟩ := h h1
  exact ⟨a, s', exec_bind_done.mpr ⟨_, _, hx, hx'⟩, h'⟩

theorem ends_brelse {f : Unit → K β} (h : Ends I (f ()) s) : Ends I (brelse b >>= f) s := h

theorem ends_getInode {f : Inode → K β} (h : Ends I (f (s.mem.icache k)) s) : Ends I (getInode k >>= f) s := h

theorem ends_getSb {f : Superblock → K β} (h : Ends I (f s.mem.sb) s) : Ends I (getSb >>= f) s := h

theorem ends_modDin (hk : Keeps W I) {g : Dinode → Dinode} {f : Unit → K β}
    (h : Ends I (f ()) (setInode s k { s.mem.icache k with din := g (s.mem.icache k).din })) :
    Ends I (modDin k g >>= f) s :=
  fun hr => h (hk.same s _ rfl rfl rfl hr)

end Rules

/-! ## Blocks -/

section Alloc

variable {sb : Superblock} {W : Set Nat} {I : LState → Prop} {s : LState}

theorem bzero_ends (hk : Keeps W I) {b : Nat} (hb : b < FSSIZE) (hW : b ∈ W) : Ends I (bzero b) s := by
  exact ends_bread hb (ends_bstore hk (ends_logWrite hk hW (ends_last (ends_brelse ends_pure))))

theorem freeBlocks_nil {v : Nat → Block} (h : ∀ c, c < sb.size → used sb v c = true) : freeBlocks sb v = [] := by
  refine eq_nil_iff_forall_not_mem.mpr fun c hc => ?_
  obtain ⟨h1, h2⟩ := mem_freeBlocks.mp hc
  rw [h c h1] at h2
  cases h2

/-- The loop of `balloc` finds a block that is free. -/
theorem ballocLoop_ends (hk : Keeps W I) (hl : Layout sb) (hfree : freeBlocks sb s.view ≠ [])
    (hW : ∀ b l, freeBlocks sb s.view = b :: l → b ∈ W ∧ BBLOCK b sb ∈ W) :
    ∀ (r t : Nat), sb.size ≤ BPB * (t + r) → (∀ c, c < BPB * t → c < sb.size → used sb s.view c = true) →
    Ends I (ballocLoop sb r (BPB * t)) s := by
  intro r
  induction r with
  | zero =>
    intro t hr hused
    exact absurd (freeBlocks_nil fun c hc => hused c (lt_of_lt_of_le hc hr) hc) hfree
  | succ r ih =>
    intro t hr hused
    rw [ballocLoop]
    by_cases hlt : BPB * t < sb.size
    · rw [if_pos hlt]
      have hdata := hl.data
      have hdisk := hl.disk
      have hblock : BBLOCK (BPB * t) sb < datastart sb := bblock_lt hlt
      refine ends_bread (by omega) ?_
      cases hscan : scanBits sb (s.view (BBLOCK (BPB * t) sb)) (BPB * t) BPB 0 with
      | some x =>
        obtain ⟨hxB, l, hfirst⟩ := scan_first hused hscan
        obtain ⟨hblk, -⟩ := bit_of_block sb (t := t) hxB
        obtain ⟨hW1, hW2⟩ := hW _ l hfirst
        rw [hblk] at hW2
        have hsize : BPB * t + x < sb.size :=
          (mem_freeBlocks.mp (hfirst ▸ mem_cons_self)).1
        refine ends_bstore hk (ends_logWrite hk hW2 (ends_brelse ?_))
        refine ends_seq (W := W) (N := True) (R := fun _ _ => True) (bzero_ends hk (by omega) hW1) ?_
          fun _ _ _ => ends_pure
        exact does_bread fun _ => does_bstore (does_logWrite hW1 (does_last (does_brelse (does_pure trivial))))
      | none =>
        refine ends_brelse ?_
        refine ih (t + 1) ?_ (scan_rest hused hscan)
        rw [show t + 1 + r = t + (r + 1) by omega]
        exact hr
    · exact absurd (freeBlocks_nil fun c hc => hused c (by omega) hc) hfree

/-- **`balloc`** takes a block when there is one. -/
theorem balloc_ends (hk : Keeps W I) (hl : Layout sb) (hsb : s.mem.sb = sb) (hfree : freeBlocks sb s.view ≠ [])
    (hW : ∀ b l, freeBlocks sb s.view = b :: l → b ∈ W ∧ BBLOCK b sb ∈ W) : Ends I balloc s := by
  refine ends_getSb ?_
  rw [hsb]
  refine ends_seq (W := W) (N := True) (ballocLoop_ends hk hl hfree hW (sb.size / BPB + 1) 0 ?_ (by omega))
    (ballocLoop_does hW _ 0 (by omega)) fun _ _ _ => ends_pure
  unfold BPB BSIZE
  omega

end Alloc

/-! ## The block map -/

section Bmap

variable {sb : Superblock} {s : LState} {D : Nat → Dinode} {i bn : Nat} {ip : Fin NINODE} {W : Set Nat} {I : LState → Prop}

theorem bmapEntry_ends (hk : Keeps W I) (hl : Layout sb) (hsb : s.mem.sb = sb) {ib : UInt32} {j : Nat}
    (hib : ib.toNat < FSSIZE) (hW : getAddr (s.view ib.toNat) j = 0 → ib.toNat ∈ W ∧
      freeBlocks sb s.view ≠ [] ∧ ∀ b l, freeBlocks sb s.view = b :: l → b ∈ W ∧ BBLOCK b sb ∈ W) :
    Ends I (bmapEntry ib j) s := by
  refine ends_bread hib ?_
  split_ifs with h0
  · obtain ⟨hW1, hfree, hW2⟩ := hW h0
    exact ends_seq (W := W) (N := True) (balloc_ends hk hl hsb hfree hW2) (balloc_does hsb hW2)
      fun _ _ _ => ends_bstore hk (ends_logWrite hk hW1 (ends_brelse ends_pure))
  · exact ends_brelse ends_pure

/-- A list with at least `n + 1` elements is not empty. -/
theorem ne_nil_of_le {l : List Nat} {n : Nat} (h : n + 1 ≤ l.length) : l ≠ [] :=
  fun hl => by rw [hl] at h; exact absurd h (Nat.not_succ_le_zero n)

/-- **`bmap`** maps block `bn` when the blocks it takes are there. -/
theorem bmap_ends (hk : Keeps W I) (hl : Layout sb) (hsb : s.mem.sb = sb) (h : Own sb s.view D ∅)
    (hdin : D i = (s.mem.icache ip).din) (hi : (D i).type ≠ 0) (hmax : bn < MAXFILE)
    (hroom : newBlocks s.view D i bn ≤ (freeBlocks sb s.view).length)
    (hW : ∀ b ∈ (freeBlocks sb s.view).take (newBlocks s.view D i bn), b ∈ W ∧ BBLOCK b sb ∈ W)
    (hWi : slots s.view D (i, bnSlot bn) = 0 → NDIRECT ≤ bn → slots s.view D (i, NDIRECT) ≠ 0 →
      slots s.view D (i, NDIRECT) ∈ W) : Ends I (bmap ip bn) s := by
  refine ends_getInode ?_
  rw [← hdin]
  by_cases hbn : bn < NDIRECT
  · split_ifs with h0
    · rw [newBlocks_direct hi hbn h0] at hW hroom
      have hW' : ∀ b l, freeBlocks sb s.view = b :: l → b ∈ W ∧ BBLOCK b sb ∈ W :=
        fun b l hb => hW b (by rw [hb]; exact mem_cons_self)
      exact ends_seq (W := W) (N := True) (balloc_ends hk hl hsb (ne_nil_of_le hroom) hW') (balloc_does hsb hW')
        fun _ _ _ => ends_modDin hk ends_pure
    · exact ends_pure
  · obtain ⟨j, rfl⟩ : ∃ j, bn = NDIRECT + j := ⟨bn - NDIRECT, by omega⟩
    have hj : j < NINDIRECT := by unfold MAXFILE at hmax; omega
    rw [if_neg hbn, Nat.add_sub_cancel_left, if_pos hj]
    have hind : slots s.view D (i, NDIRECT) = (addr (D i) NDIRECT).toNat := by
      rw [slots_direct hi (by omega)]
    have hdisk := hl.disk
    by_cases h0 : addr (D i) NDIRECT = 0
    · have hz : slots s.view D (i, bnSlot (NDIRECT + j)) = 0 := by
        rw [slots_of_type hi, bnSlot_entry, slotAddr, if_neg (by omega), if_neg (fun h => h.1 h0)]
      have hnew : newBlocks s.view D i (NDIRECT + j) = 2 := by
        rw [newBlocks, if_neg (fun h => h hz), if_pos ⟨Nat.le_add_right _ _, by rw [hind, h0]; rfl⟩]
      rw [hnew] at hW hroom
      have hW' : ∀ b l, freeBlocks sb s.view = b :: l → b ∈ W ∧ BBLOCK b sb ∈ W :=
        fun b l hb => hW b (by rw [hb]; exact mem_cons_self)
      refine ends_seq (W := W) (N := True) ?_ (bmapIndirect_takes hsb hdin h0 hW') ?_
      · refine ends_getInode ?_
        rw [← hdin, if_pos h0]
        exact ends_seq (W := W) (N := True) (balloc_ends hk hl hsb (ne_nil_of_le hroom) hW') (balloc_does hsb hW')
          fun _ _ _ => ends_modDin hk ends_pure
      · -- the second block is the next free one
        rintro a s1 ⟨b, l, hb, rfl, hs1⟩
        obtain ⟨hsize, -, hnat⟩ := free_size hl hb
        have hview : s1.view = allocView sb s.view b := by rw [hs1]; rfl
        have hrest : freeBlocks sb s1.view = l := by rw [hview, freeBlocks_allocView (free_data h hb) hb]
        rw [hb] at hW hroom
        refine bmapEntry_ends hk hl (by rw [hs1]; exact hsb) (by rw [hnat]; omega) fun _ => ⟨?_, ?_, ?_⟩
        · rw [hnat]; exact (hW b mem_cons_self).1
        · rw [hrest]
          exact ne_nil_of_le (n := 0) (by rw [length_cons] at hroom; omega)
        · intro b' l' hb'
          rw [hrest] at hb'
          rw [hb'] at hW
          exact hW b' (mem_cons_of_mem _ mem_cons_self)
    · have hn0 : slots s.view D (i, NDIRECT) ≠ 0 := by
        rw [hind]; exact fun hz => h0 (UInt32.toNat.inj hz)
      have hcell := (h.cell _ hn0).2
      refine ends_seq (W := W) (N := True) ?_ (bmapIndirect_there hdin h0) ?_
      · refine ends_getInode ?_
        rw [← hdin, if_neg h0]
        exact ends_pure
      · rintro a s1 ⟨rfl, rfl⟩
        refine bmapEntry_ends hk hl hsb (by omega) fun hzero => ?_
        have hz : slots s1.view D (i, bnSlot (NDIRECT + j)) = 0 := by
          rw [bnSlot_entry, slots_of_type hi, slotAddr_entry hj h0, hzero]
          rfl
        have hnew : newBlocks s1.view D i (NDIRECT + j) = 1 := by
          rw [newBlocks, if_neg (fun h => h hz), if_neg (fun h => hn0 h.2)]
        rw [hnew] at hW hroom
        refine ⟨hind ▸ hWi hz (Nat.le_add_right _ _) hn0, ne_nil_of_le hroom, ?_⟩
        intro b l hb
        exact hW b (by rw [hb]; exact mem_cons_self)

end Bmap

/-! ## Reading and writing -/

section ReadWrite

variable {sb : Superblock} {s : LState} {i : Nat} {ip : Fin NINODE} {W : Set Nat} {I : LState → Prop}

/-- The loop of `readi` finishes when the blocks are mapped. -/
theorem readiLoop_ends (hk : Keeps W I) {D : Nat → Dinode} (hl : Layout sb) (hsb : s.mem.sb = sb) (h : Own sb s.view D ∅)
    (hdin : D i = (s.mem.icache ip).din) (hi : (D i).type ≠ 0) {n : Nat} (r tot off : Nat) (hr : n - tot ≤ r)
    (hmax : off + (n - tot) ≤ MAXFILE * BSIZE)
    (hmap : (∀ p, off ≤ p → p < off + (n - tot) → slots s.view D (i, bnSlot (p / BSIZE)) ≠ 0)) :
    Ends I (readiLoop ip n r tot off) s := by
  induction r generalizing tot off with
  | zero => exact ends_pure
  | succ r ih =>
    rw [readiLoop]
    split
    · have hmod : off % BSIZE < BSIZE := Nat.mod_lt _ (by decide)
      have hslot := hmap off (le_refl _) (by omega)
      have hbn : off / BSIZE < MAXFILE :=
        Nat.div_lt_of_lt_mul (by rw [mul_comm]; omega)
      have hnew : newBlocks s.view D i (off / BSIZE) = 0 := if_pos hslot
      refine ends_seq (W := W) (N := True) (bmap_ends hk hl hsb h hdin hi hbn ?_ ?_ (fun h0 => absurd h0 hslot))
        (bmap_mapped_does hdin hi hslot) ?_
      · rw [hnew]; exact Nat.zero_le _
      · rw [hnew, take_zero]
        exact fun b hb => absurd hb not_mem_nil
      · rintro a s1 ⟨ha, rfl⟩
        have hcell := (h.cell _ hslot).2
        have hdisk := hl.disk
        refine ends_bread (by omega) (ends_brelse ?_)
        generalize hm : min (n - tot) (BSIZE - off % BSIZE) = m
        have hrest : ∀ p, off + m ≤ p → p < off + m + (n - (tot + m)) →
            slots s1.view D (i, bnSlot (p / BSIZE)) ≠ 0 := fun p h1 h2 => hmap p (by omega) (by omega)
        exact ends_seq (W := W) (N := True) (ih (tot + m) (off + m) (by omega) (by omega) hrest)
          (readiLoop_does hdin hi r (tot + m) (off + m) (by omega) hrest) fun _ _ _ => ends_pure
    · exact ends_pure

/-- **`readi`** of a file without holes finishes, in a transaction or not. -/
theorem readi_ends (hk : Keeps W I) (hl : Layout sb) (hown : Own sb s.view (dino sb s.view) ∅)
    (hold : Whole s.view (dino sb s.view) i) (hsb : s.mem.sb = sb)
    (hdin : dino sb s.view i = (s.mem.icache ip).din) (hi : (dino sb s.view i).type ≠ 0)
    (hdev : (dino sb s.view i).type ≠ T_DEV) (off n : UInt32) : Ends I (readi ip off n) s := by
  refine ends_getInode ?_
  rw [← hdin, if_neg hdev]
  split
  · exact ends_pure
  · next hbad =>
    obtain ⟨hsize, hmapped⟩ := hold hi hdev
    have hle := readLen_le (fun h => hbad (.inl h)) (fun h => hbad (.inr h))
    have hmap : ∀ p, off.toNat ≤ p → p < off.toNat + ((readLen (dino sb s.view i).size off n).toNat - 0) →
        slots s.view (dino sb s.view) (i, bnSlot (p / BSIZE)) ≠ 0 := by
      intro p h1 h2
      refine hmapped _ ?_
      have := block_start (p := p)
      omega
    exact ends_seq (W := W) (N := True) (readiLoop_ends hk hl hsb hown hdin hi _ 0 off.toNat
      (le_refl _) (le_trans hle hsize) hmap)
      (readiLoop_does hdin hi _ 0 off.toNat (le_refl _) hmap) fun _ _ _ => ends_pure

/-- The loop of `writei` finishes when the blocks it takes are there. -/
theorem writeiLoop_ends (hk : Keeps W I) (hl : Layout sb) {n : Nat} (src : Nat → UInt8) (r tot off : Nat) (s : LState)
    (D : Nat → Dinode) (hr : n - tot ≤ r) (hmax : off + (n - tot) ≤ MAXFILE * BSIZE) (hsb : s.mem.sb = sb)
    (h : Own sb s.view D ∅) (hdin : D i = (s.mem.icache ip).din) (hi : (D i).type ≠ 0)
    (hroom : Room W sb s.view D i (span off (n - tot)))
    (hfree : grow s.view D i (span off (n - tot)) ≤ (freeBlocks sb s.view).length) :
    Ends I (writeiLoop ip src n r tot off) s := by
  induction r generalizing tot off s D with
  | zero => exact ends_pure
  | succ r ih =>
    rw [writeiLoop]
    split_ifs with hlt
    · have hmod : off % BSIZE < BSIZE := Nat.mod_lt _ (by decide)
      have hhead : off / BSIZE ∉ span (off + min (n - tot) (BSIZE - off % BSIZE))
          (n - tot - min (n - tot) (BSIZE - off % BSIZE)) := span_head_notMem
      rw [span_step (show 0 < n - tot by omega)] at hroom hfree
      have hbn : off / BSIZE < MAXFILE :=
        Nat.div_lt_of_lt_mul (by rw [mul_comm]; omega)
      generalize hm : min (n - tot) (BSIZE - off % BSIZE) = m at hroom hhead hfree ⊢
      rw [Nat.sub_sub] at hroom hhead hfree
      have hW1 : ∀ b ∈ (freeBlocks sb s.view).take (newBlocks s.view D i (off / BSIZE)),
          b ∈ W ∧ BBLOCK b sb ∈ W := fun b hb =>
        hroom.free b ((take_sublist_take_left newBlocks_le_grow).subset hb)
      have hW2 : slots s.view D (i, bnSlot (off / BSIZE)) = 0 → NDIRECT ≤ off / BSIZE →
          slots s.view D (i, NDIRECT) ≠ 0 → slots s.view D (i, NDIRECT) ∈ W := fun h0 hge hne =>
        hroom.indirect ⟨_, mem_cons_self, hge, h0⟩ hne
      refine ends_seq (W := W) (N := True) (bmap_ends hk hl hsb h hdin hi hbn
        (le_trans newBlocks_le_grow hfree) hW1 hW2) (bmap_does hl hsb h hdin hi hW1 hW2) ?_
      rintro a s1 ⟨D1, hmap⟩
      have hcell := (hmap.evolves.own.cell _ (hmap.here ▸ hmap.nonzero)).2
      rw [hmap.here] at hcell
      have hdisk := hl.disk
      have hmem := hmap.memory hsb
      refine ends_bread (by omega) (ends_bstore hk (ends_logWrite hk (hroom.here hmap) (ends_brelse ?_)))
      generalize blit (s1.view a.toNat) (off % BSIZE) m (fun j => src (tot + j)) = blk
      obtain ⟨hslots, hsame, hstore⟩ := hmap.store blk
      refine ih (tot + m) (off + m) _ D1 (by omega) (by omega) hmem.1 hstore.own hmem.2 ?_ ?_ ?_
      · rw [hmap.evolves.type_eq]; exact hi
      · exact hroom.tail hmap hhead hslots hsame
      · show grow (update s1.view a.toNat blk) D1 i _ ≤
          (freeBlocks sb (update s1.view a.toNat blk)).length
        rw [hmap.grow_cons hhead hslots] at hfree
        rw [hsame, hmap.free, length_drop]
        omega
    · exact ends_pure

theorem exec_getMem {α : Type} {f : Mem → K α} : exec (getMem >>= f) s = exec (f s.mem) s := rfl

theorem exec_getInode {α : Type} {f : Inode → K α} : exec (getInode ip >>= f) s = exec (f (s.mem.icache ip)) s := rfl

/-- `iupdate` at the end of a transaction: its block may be one more. -/
theorem iupdate_last {V : Finset Nat} (hl : Layout sb) (hsb : s.mem.sb = sb)
    (hi : (s.mem.icache ip).inum < sb.ninodes) (h : Begun V s) : ∃ s', exec (iupdate ip) s = .done () s' := by
  have h1 := iblock_lt hl hi
  have h2 : sb.bmapstart < datastart sb := bmapstart_lt_datastart
  have h3 := hl.data
  have h4 := hl.disk
  have hblock : IBLOCK (s.mem.icache ip).inum s.mem.sb < FSSIZE := by rw [hsb]; omega
  have hread : exec (bread (IBLOCK (s.mem.icache ip).inum s.mem.sb)) s
      = .done (s.view (IBLOCK (s.mem.icache ip).inum s.mem.sb)) s := exec_bread_done.mpr ⟨hblock, rfl, rfl⟩
  have hput : Begun V (put s (IBLOCK (s.mem.icache ip).inum s.mem.sb)
      (putDinode (s.view (IBLOCK (s.mem.icache ip).inum s.mem.sb)) ((s.mem.icache ip).inum % IPB)
        (s.mem.icache ip).din)) := h.same rfl rfl rfl
  exact ⟨_, exec_bind_done.mpr ⟨_, s, rfl, exec_bind_done.mpr ⟨_, s, rfl, exec_bind_done.mpr ⟨_, s, hread,
    exec_bind_done.mpr ⟨(), _, rfl, exec_bind_done.mpr ⟨(), _, hput.exec_logWrite _, rfl⟩⟩⟩⟩⟩⟩

theorem writeiFinish_last {V : Finset Nat} (hl : Layout sb) (hsb : s.mem.sb = sb)
    (hi : (s.mem.icache ip).inum < sb.ninodes) (h : Begun V s) (off n : UInt32) :
    ∃ r s', exec (writeiFinish ip off n) s = .done r s' := by
  let s1 := setInode s ip { s.mem.icache ip with din :=
    if 0 < n ∧ (s.mem.icache ip).din.size < off + n then { (s.mem.icache ip).din with size := off + n }
    else (s.mem.icache ip).din }
  let s2 : LState := { s1 with input := fun k => s1.input (k + 1) }
  let s3 := setInode s2 ip { s2.mem.icache ip with din := { (s2.mem.icache ip).din with mtime := s1.input 0 } }
  have hinum : (s3.mem.icache ip).inum = (s.mem.icache ip).inum := by
    simp only [s3, s2, s1, setInode, update_self]
  have hbegun : Begun V s3 := h.same rfl rfl rfl
  rw [← hinum] at hi
  obtain ⟨s4, h4⟩ := iupdate_last (s := s3) hl hsb hi hbegun
  exact ⟨_, s4, exec_bind_done.mpr ⟨(), s1, rfl, exec_bind_done.mpr ⟨_, s2, rfl,
    exec_bind_done.mpr ⟨(), s3, rfl, exec_bind_done.mpr ⟨(), s4, h4, rfl⟩⟩⟩⟩⟩

/-- **`writei`** finishes when the blocks it takes are there and the transaction may log them. -/
theorem writei_finishes {V : Finset Nat} {off n : UInt32} (src : Nat → UInt8) (hl : Layout sb)
    (hown : Own sb s.view (dino sb s.view) ∅) (hsb : s.mem.sb = sb)
    (hinum : (s.mem.icache ip).inum = i) (hdin : dino sb s.view i = (s.mem.icache ip).din)
    (hi : (dino sb s.view i).type ≠ 0) (hdev : (dino sb s.view i).type ≠ T_DEV)
    (hroom : Accepts (dino sb s.view i).size off n → Begun V s ∧
      Room ↑V sb s.view (dino sb s.view) i (span off.toNat n.toNat) ∧
      grow s.view (dino sb s.view) i (span off.toNat n.toNat) ≤ (freeBlocks sb s.view).length) :
    ∃ r s', exec (writei ip src off n) s = .done r s' := by
  rw [writei, exec_getInode, ← hdin, if_neg hdev]
  split_ifs with hbad hmax
  · exact ⟨_, _, rfl⟩
  · exact ⟨_, _, rfl⟩
  · obtain ⟨hbegun, hroom, hfree⟩ := hroom ⟨hbad, not_lt.mp hmax⟩
    have hadd : (off + n).toNat = off.toNat + n.toNat := toNat_add_of_not_lt fun hc => hbad (.inr hc)
    have hlast : off.toNat + (n.toNat - 0) ≤ MAXFILE * BSIZE := by
      rw [Nat.sub_zero, ← hadd]
      exact not_lt.mp hmax
    obtain ⟨_, s1, hloop, h1⟩ := writeiLoop_ends (keeps_begun V) hl src n.toNat 0 off.toNat s
      (dino sb s.view) (le_refl _) hlast hsb hown hdin hi hroom hfree hbegun
    obtain ⟨D', hw⟩ := does_exec (writeiLoop_does (N := True) (n := n.toNat) hl src n.toNat 0 off.toNat s
      (dino sb s.view) (le_refl _) hsb hown hdin hi hroom) hloop
    have hmem : s1.mem.sb = sb ∧ (s1.mem.icache ip).inum = i := by
      rw [hw.state, edit_sb, edit_inode]
      exact ⟨hsb, hinum⟩
    obtain ⟨r, s2, hlast⟩ := writeiFinish_last hl hmem.1 (by rw [hmem.2]; exact (dino_range hi).2) h1 off n
    exact ⟨r, s2, exec_bind_done.mpr ⟨(), s1, hloop, hlast⟩⟩

end ReadWrite

end Xv6Total
