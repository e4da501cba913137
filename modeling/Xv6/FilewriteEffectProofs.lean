import Xv6.CallRulesProofs
import Xv6.FilewriteSpaceProofs
import Xv6.InodeCacheProofs

/-!
# `filewrite` — what a failed write leaves

`filewrite` cuts a write into chunks, each in a transaction of its own, and advances the offset after each.
`writei` tests the range of its own chunk only. A chunk that is refused ends the call with an error, but the
chunks before it have been written and stay.

`filewriteLoop_does` says what the loop has done when it ends, at whatever chunk that is. The write is all or
nothing exactly if the first chunk is refused already or the last one is not.
-/

namespace Xv6Own

open CmdProg ByteBuf Xv6Disk Xv6Kernel Xv6Fs Xv6Layout Xv6Total Xv6Inode Xv6Sys Ledger Function Set Xv6Mkfs UInt32

/-- Entry `f` of the file table is open on slot `ip`, which stands for the regular file `x`, inode `i`. -/
structure OpenOn (sb : Superblock) (s : LState) (f : Fin NFILE) (ip : Fin NINODE) (i : Nat) (x : Node) :
    Prop where
  disk : Disk sb s.view
  super : s.mem.sb = sb
  type : (s.mem.ftable f).type = .inode
  slot : (s.mem.ftable f).ip = some ip
  inum : (s.mem.icache ip).inum = i
  sync : (s.mem.icache ip).valid = true → (s.mem.icache ip).din = dino sb s.view i
  node : nodes sb s.view i = some x
  file : x.type = T_FILE

/-- `writei` takes a range of the file. -/
def Takes (x : Node) (off n : Nat) : Prop :=
  off ≤ x.size ∧ off + n ≤ MAXFILE * BSIZE

instance (x : Node) (off n : Nat) : Decidable (Takes x off n) :=
  inferInstanceAs (Decidable (_ ∧ _))

/-- What one `writei` makes of the file. -/
def wrote (x : Node) (off n : Nat) (src : Nat → UInt8) : Node :=
  if Takes x off n then x.write off n src else x

/-- What else a chunk of `filewrite` leaves: the slot, unlocked, and the log. -/
structure Settled (sb : Superblock) (ip : Fin NINODE) (i : Nat) (s s' : LState) : Prop where
  slot : s'.mem.icache ip = { s.mem.icache ip with busy := false, valid := true, din := dino sb s'.view i }
  logSize : s'.logSize = s.logSize
  idle : s.outstanding = 0 → s'.outstanding = 0 ∧ s'.lh = []

variable {sb : Superblock} {s s' : LState} {f : Fin NFILE} {ip : Fin NINODE} {i : Nat} {x : Node}
  {src : Nat → UInt8}

theorem OpenOn.alloc (h : OpenOn sb s f ip i x) : (dino sb s.view i).type ≠ 0 ∧
    (dino sb s.view i).type ≠ T_DEV ∧ (dino sb s.view i).size.toNat = x.size := by
  obtain ⟨h0, htype, -, hsize, -⟩ := nodesOf_some h.node
  refine ⟨h0, ?_, hsize.symm⟩
  rw [← htype, h.file]
  decide

/-- `ilock` of the file. -/
theorem OpenOn.ilock (h : OpenOn sb s f ip i x) (hview : s'.view = s.view) (hmem : s'.mem = s.mem) :
    Does univ True (fun _ s'' => s'' = setInode s' ip (locked sb s.view (s.mem.icache ip))) (ilock ip) s' := by
  obtain ⟨h0, -, -⟩ := h.alloc
  obtain ⟨h1, h2⟩ := dino_range h0
  refine does_getInode ?_
  split
  · exact does_kpanic (by decide)
  · cases hbusy : (s'.mem.icache ip).busy with
    | true => exact does_halt nofun
    | false =>
      have hsb : (setInode s' ip { s'.mem.icache ip with busy := true }).mem.sb = sb := by
        rw [setInode_sb, hmem]
        exact h.super
      refine does_modInode (does_mono (ilockRead_does hsb ?_ ?_ ?_ ?_) ?_)
      · rw [setInode_same, hmem, h.inum]
        exact h1
      · rw [setInode_same, hmem, h.inum]
        exact h2
      · rw [setInode_same, hmem, setInode_view, hview]
        intro hv
        have hs := h.sync hv
        rw [h.inum, hs]
        exact ⟨rfl, h0⟩
      · exact fun _ => trivial
      · rintro _ s'' ⟨rfl, -⟩
        rw [setInode_same, setInode_twice, setInode_view, hview, hmem]
        rfl

/-- The disk after a `writei` that was not refused. -/
theorem OpenOn.rewritten {d : Dinode} {off n : UInt32} (h : OpenOn sb s f ip i x)
    (hre : Rewritten sb s.view s'.view i d off n src) (hsb : s'.mem.sb = s.mem.sb)
    (htype : (s'.mem.ftable f).type = .inode) (hslot : (s'.mem.ftable f).ip = some ip)
    (hinum : (s'.mem.icache ip).inum = i) (hdin : (s'.mem.icache ip).din = dino sb s'.view i) :
    OpenOn sb s' f ip i (x.write off.toNat n.toNat src) := by
  obtain ⟨hdisk, hnodes⟩ := disk_change h.disk hre.table hre.super hre.own hre.others hre.keep hre.whole
  obtain ⟨y, hy, hnode⟩ := hre.node
  rw [h.node] at hy
  cases hy
  refine ⟨hdisk, hsb.trans h.super, htype, hslot, hinum, fun _ => hdin, ?_, h.file⟩
  rw [hnodes, update_self, hnode]

theorem takes_iff (h : OpenOn sb s f ip i x) {off : UInt32} {n : Nat} (hn : n < 2 ^ 32) :
    Accepts (dino sb s.view i).size off (ofNat n) ↔ Takes x off.toNat n := by
  have hnat : (ofNat n).toNat = n := toNat_ofNat_of_lt' hn
  obtain ⟨-, -, hsize⟩ := h.alloc
  rw [accepts_iff, hnat, hsize, Takes]

/-- How a chunk of `n` bytes ends: refused, or written, with the offset advanced. -/
def ChunkEnds (sb : Superblock) (f : Fin NFILE) (ip : Fin NINODE) (i : Nat) (x : Node) (src : Nat → UInt8)
    (n : Nat) (s : LState) (r : Int) (s' : LState) : Prop :=
  Settled sb ip i s s' ∧
  ((¬ Takes x (s.mem.ftable f).off.toNat n ∧ r = -1 ∧ s'.view = s.view ∧ s'.mem.ftable = s.mem.ftable ∧
      OpenOn sb s' f ip i x) ∨
    (Takes x (s.mem.ftable f).off.toNat n ∧ r = n ∧
      (∃ d, Rewritten sb s.view s'.view i d (s.mem.ftable f).off (ofNat n) src) ∧
      s'.mem.ftable = update s.mem.ftable f
        { s.mem.ftable f with off := (s.mem.ftable f).off + ofNat n } ∧
      OpenOn sb s' f ip i (x.write (s.mem.ftable f).off.toNat n src)))

/-- The end of a chunk, after `writei`. -/
theorem chunkTail_does {g : File → File} {r : Int} {s2 : LState} :
    Does univ True (fun r' s' => r' = r ∧ s' = left (setInode (setFile s2 f (g (s2.mem.ftable f))) ip
      { s2.mem.icache ip with busy := false }))
      (modFile f g >>= fun _ => iunlock ip >>= fun _ => endOp >>= fun _ => (pure r : K Int)) s2 := by
  refine does_modMem ?_
  refine does_seq (R := fun _ s' => s' = setInode (setFile s2 f (g (s2.mem.ftable f))) ip
    { s2.mem.icache ip with busy := false }) ?_ ?_
  · refine does_getInode ?_
    split
    · exact does_kpanic (by decide)
    · exact does_last (does_modInode (does_pure rfl))
  · rintro _ s' rfl
    exact does_endOp (does_pure ⟨rfl, rfl⟩)

/-- **A chunk of `filewrite`.** -/
theorem OpenOn.chunk (h : OpenOn sb s f ip i x) {n : Nat} (hn : n < 2 ^ 32) (hpos : 0 < n) :
    Does univ True (fun r s' => ChunkEnds sb f ip i x src n s r s') (filewriteChunk f ip src n) s := by
  obtain ⟨h0, hdev, -⟩ := h.alloc
  refine does_beginOp (does_seq (h.ilock rfl rfl) ?_)
  rintro _ s1 rfl
  refine does_getMem ?_
  -- the state in which `writei` runs
  generalize hs1 : setInode (entered s) ip (locked sb s.view (s.mem.icache ip)) = s1
  have hview : s1.view = s.view := by rw [← hs1]; rfl
  have hsb : s1.mem.sb = sb := by rw [← hs1]; exact h.super
  have hslot : s1.mem.icache ip = locked sb s.view (s.mem.icache ip) := by rw [← hs1, setInode_same]
  have hft : s1.mem.ftable = s.mem.ftable := by rw [← hs1]; rfl
  have hlog : s1.logSize = s.logSize ∧ s1.outstanding = s.outstanding + 1 := by rw [← hs1]; exact ⟨rfl, rfl⟩
  have hdin : dino sb s1.view i = (s1.mem.icache ip).din := by rw [hview, hslot, locked, h.inum]
  have hinum : (s1.mem.icache ip).inum = i := by rw [hslot]; exact h.inum
  have hidle : ∀ s2 : LState, s2.outstanding = s1.outstanding → s.outstanding = 0 →
      (left s2).outstanding = 0 ∧ (left s2).lh = [] := by
    intro s2 h2 hz
    rw [left, if_pos (by rw [h2, hlog.2, hz]; rfl)]
    exact ⟨rfl, rfl⟩
  have htake : Accepts (dino sb s1.view i).size (s.mem.ftable f).off (ofNat n) ↔
      Takes x (s.mem.ftable f).off.toNat n := by
    rw [hview]
    exact takes_iff h hn
  rw [hft]
  refine does_seq (writei_rewrites (W := univ) (N := True) hsb hinum hdin (hview ▸ h0) (hview ▸ hdev)
    (fun _ => room_univ) trivial h.disk.layout (hview ▸ h.disk.own) (hview ▸ h.disk.whole i)) ?_
  rintro r s2 (⟨hno, rfl, rfl⟩ | ⟨hacc, rfl, d, g, hs2, hre⟩)
  · refine does_mono chunkTail_does ?_
    rintro r s' ⟨rfl, rfl⟩
    rw [if_neg (by decide)]
    have hfile : setFile s2 f (s2.mem.ftable f) = s2 := by
      rw [setFile, update_eq_self]
    rw [hfile]
    refine ⟨⟨?_, ?_, fun hz => hidle _ rfl hz⟩, Or.inl ⟨fun ht => hno (htake.mpr ht), rfl, ?_, ?_, ?_⟩⟩
    · rw [left_mem, setInode_same, hslot, left_view, setInode_view, hview, ← h.inum]
      rfl
    · rw [left_logSize]
      exact hlog.1
    · rw [left_view, setInode_view, hview]
    · rw [left_mem]
      exact hft
    · refine ⟨?_, ?_, ?_, ?_, ?_, ?_, ?_, h.file⟩
      · rw [left_view, setInode_view, hview]
        exact h.disk
      · rw [left_mem, setInode_sb]
        exact hsb
      · rw [left_mem]
        exact hft ▸ h.type
      · rw [left_mem]
        exact hft ▸ h.slot
      · rw [left_mem, setInode_same]
        exact hinum
      · intro _
        rw [left_mem, setInode_same, left_view, setInode_view]
        exact hdin.symm
      · rw [left_view, setInode_view, hview]
        exact h.node
  · have hnat : (ofNat n).toNat = n := toNat_ofNat_of_lt' hn
    have hd : dino sb s2.view i = d := by rw [hre.table, update_self]
    have hslot2 : s2.mem.icache ip = { s1.mem.icache ip with din := d } := by
      rw [hs2]
      exact edit_inode s1 ip s2.view s2.lh d
    have hft2 : s2.mem.ftable = s.mem.ftable := by rw [hs2, ← hft]; rfl
    have hout : s2.outstanding = s1.outstanding ∧ s2.logSize = s1.logSize ∧ s2.mem.sb = s1.mem.sb := by
      rw [hs2]
      exact ⟨rfl, rfl, rfl⟩
    refine does_mono chunkTail_does ?_
    rintro r s' ⟨rfl, rfl⟩
    rw [hnat, if_pos (by omega), Int.toNat_natCast, hft2]
    generalize hs3 : setInode (setFile s2 f { s.mem.ftable f with
      off := (s.mem.ftable f).off + ofNat n }) ip { s2.mem.icache ip with busy := false } = s3
    have hview3 : s3.view = s2.view := by rw [← hs3]; rfl
    have hslot3 : s3.mem.icache ip = { s2.mem.icache ip with busy := false } := by rw [← hs3, setInode_same]
    have hft3 : s3.mem.ftable = update s.mem.ftable f
        { s.mem.ftable f with off := (s.mem.ftable f).off + ofNat n } := by
      rw [← hs3, ← hft2]
      rfl
    have hout3 : s3.outstanding = s2.outstanding ∧ s3.logSize = s2.logSize ∧ s3.mem.sb = s2.mem.sb := by
      rw [← hs3]
      exact ⟨rfl, rfl, rfl⟩
    have hre3 : Rewritten sb s.view (left s3).view i d (s.mem.ftable f).off (ofNat n) src := by
      rw [left_view, hview3, ← hview]
      exact hre
    have hin3 : (s3.mem.icache ip).inum = i ∧ (s3.mem.icache ip).din = d := by
      rw [hslot3, hslot2]
      exact ⟨hinum, rfl⟩
    refine ⟨⟨?_, ?_, fun hz => hidle _ (hout3.1.trans hout.1) hz⟩, Or.inr ⟨htake.mp hacc, rfl, ⟨d, hre3⟩, ?_, ?_⟩⟩
    · rw [left_mem, hslot3, hslot2, hslot, left_view, hview3, hd]
      rfl
    · rw [left_logSize, hout3.2.1, hout.2.1]
      exact hlog.1
    · rw [left_mem]
      exact hft3
    · have hopen := h.rewritten hre3 (by rw [left_mem, hout3.2.2, hout.2.2, hsb, h.super])
        (by rw [left_mem, hft3, update_self]; exact h.type)
        (by rw [left_mem, hft3, update_self]; exact h.slot)
        (by rw [left_mem]; exact hin3.1)
        (by rw [left_mem, left_view, hview3, hd]; exact hin3.2)
      rw [hnat] at hopen
      exact hopen

/-! ## The loop -/

/-- Two writes, the second where the first one ended. -/
theorem write_write (x : Node) (off a b : Nat) (src : Nat → UInt8) :
    (x.write off a src).write (off + a) b (fun m => src (a + m)) = x.write off (a + b) src := by
  have hsplit : written (written x.bytes off a src) (off + a) (a + b - a) (fun m => src (a + m))
      = written x.bytes off (a + b) src := written_split (Nat.le_add_right a b)
  rw [Nat.add_sub_cancel_left] at hsplit
  simp only [Node.write, hsplit, Node.mk.injEq, true_and, and_true]
  omega

/-- The file when its first `k` bytes have been written. -/
def upTo (x : Node) (off k : Nat) (src : Nat → UInt8) : Node :=
  if k = 0 then x else x.write off k src

/-- The loop of `filewrite` from byte `j` has come to byte `j'`: what is written, and why it ended. -/
structure LoopEnds (sb : Superblock) (f : Fin NFILE) (ip : Fin NINODE) (i : Nat) (x : Node)
    (src : Nat → UInt8) (n off j : Nat) (j' : Nat) (s' : LState) : Prop where
  above : j ≤ j'
  below : j' ≤ n
  file : OpenOn sb s' f ip i (upTo x off (j' - j) fun m => src (j + m))
  offset : (s'.mem.ftable f).off.toNat = off + (j' - j)
  first : j < j' → Takes x off (min (n - j) filewriteMax) ∧ off + (j' - j) ≤ MAXFILE * BSIZE
  refused : j' < n → ¬ Takes (upTo x off (j' - j) fun m => src (j + m)) (off + (j' - j)) (min (n - j') filewriteMax)

theorem loopEnds_stay {n off j : Nat} (h : OpenOn sb s f ip i x) (hj : j ≤ n)
    (hoff : (s.mem.ftable f).off.toNat = off) (hstop : j < n → ¬ Takes x off (min (n - j) filewriteMax)) :
    LoopEnds sb f ip i x src n off j j s := by
  refine ⟨le_refl j, hj, ?_, ?_, fun hlt => absurd hlt (lt_irrefl j), fun hlt => ?_⟩
  · rw [Nat.sub_self, upTo, if_pos rfl]
    exact h
  · rw [Nat.sub_self]
    exact hoff
  · rw [Nat.sub_self, upTo, if_pos rfl]
    exact hstop hlt

/-- One chunk, then the rest of the loop. -/
theorem loopEnds_step {n off j k j' : Nat} (hk : k = min (n - j) filewriteMax) (hpos : 0 < k) (htake : Takes x off k)
    (h : LoopEnds sb f ip i (x.write off k fun m => src (j + m)) src n (off + k) (j + k) j' s') :
    LoopEnds sb f ip i x src n off j j' s' := by
  have habove := h.above
  have hwhole : upTo (x.write off k fun m => src (j + m)) (off + k) (j' - (j + k))
      (fun m => src (j + k + m)) = upTo x off (j' - j) fun m => src (j + m) := by
    rw [upTo, upTo, if_neg (by omega : ¬ j' - j = 0)]
    split_ifs with h0
    · rw [show j' - j = k by omega]
    · have hww := write_write x off k (j' - (j + k)) fun m => src (j + m)
      rw [show k + (j' - (j + k)) = j' - j by omega] at hww
      rw [← hww]
      simp only [add_assoc]
  have hoff : off + k + (j' - (j + k)) = off + (j' - j) := by omega
  refine ⟨by omega, h.below, hwhole ▸ h.file, hoff ▸ h.offset, fun _ => ⟨hk ▸ htake, ?_⟩, fun hlt => ?_⟩
  · by_cases hlt : j + k < j'
    · rw [← hoff]
      exact (h.first hlt).2
    · rw [show j' - j = k by omega]
      exact htake.2
  · rw [← hwhole, ← hoff]
    exact h.refused hlt

/-- **The loop of `filewrite`** writes chunk after chunk, up to the first one that is refused. -/
theorem filewriteLoop_does {n : Nat} (hn : n < 2 ^ 31) (rounds j : Nat) (s : LState) (x : Node)
    (hr : n - j ≤ rounds) (hj : j ≤ n) (h : OpenOn sb s f ip i x) :
    Does univ True (fun j' s' => LoopEnds sb f ip i x src n (s.mem.ftable f).off.toNat j j' s')
      (filewriteLoop f ip src n rounds j) s := by
  induction rounds generalizing j s x with
  | zero =>
    exact does_pure (loopEnds_stay h hj rfl fun hlt => absurd hlt (by omega))
  | succ rounds ih =>
    rw [Xv6Sys.filewriteLoop]
    split_ifs with hlt
    · have hmax : 0 < filewriteMax := by decide
      have hk : 0 < min (n - j) filewriteMax := by omega
      refine does_seq (h.chunk (by omega) hk) ?_
      rintro r s1 ⟨-, ⟨hno, rfl, hview, hft, hopen⟩ | ⟨htake, rfl, -, hft, hopen⟩⟩
      · exact does_pure (loopEnds_stay hopen hj (by rw [hft]) fun _ => hno)
      · rw [if_neg (by omega), if_neg (fun hne => hne rfl), Int.toNat_natCast]
        have hoff : (s1.mem.ftable f).off.toNat = (s.mem.ftable f).off.toNat + min (n - j) filewriteMax := by
          have hlim : MAXFILE * BSIZE < 2 ^ 32 := by decide
          have hsum := htake.2
          rw [hft, update_self]
          rw [UInt32.toNat_add, UInt32.toNat_ofNat']
          omega
        refine does_mono (ih _ s1 _ (by omega) (by omega) hopen) fun j' s' hend => ?_
        rw [hoff] at hend
        exact loopEnds_step rfl hk htake hend
    · exact does_pure (loopEnds_stay h hj rfl fun hf => absurd hf hlt)

/-- **`filewrite`** to a regular file. -/
theorem filewrite_does {n : Int32} (h : OpenOn sb s f ip i x) : Does univ True (fun r s' =>
      ((s.mem.ftable f).writable = false ∧ r = EBADF ∧ s' = s) ∨
      ((s.mem.ftable f).writable = true ∧ ∃ j' : Nat, r = (if (j' : Int) = n.toInt then n.toInt else EFBIG) ∧
        LoopEnds sb f ip i x src n.toInt.toNat (s.mem.ftable f).off.toNat 0 j' s')) (filewrite f src n) s := by
  refine does_getMem ?_
  dsimp only
  cases hw : (s.mem.ftable f).writable with
  | false =>
    exact does_pure (Or.inl ⟨rfl, rfl, rfl⟩)
  | true =>
    rw [if_neg (by decide), h.type]
    dsimp only
    have hip : fileInode (s.mem.ftable f) = pure ip := by rw [fileInode, h.slot]
    rw [hip]
    have hn := n.toInt_lt
    refine does_seq (R := fun a s' => a = ip ∧ s' = s) (does_pure ⟨rfl, rfl⟩) ?_
    rintro _ _ ⟨rfl, rfl⟩
    refine does_seq (filewriteLoop_does (by omega) _ 0 _ x (by omega) (Nat.zero_le _) h) ?_
    intro j' s' hend
    exact does_pure (Or.inr ⟨rfl, j', rfl, hend⟩)

/-! ## All or nothing -/

/-- A write that fails leaves the file and the offset as they were; one that returns `n` has the effect of one
    `writei` of all `n` bytes at the old offset, and has advanced the offset by `n`. -/
def AllOrNothing (sb : Superblock) (f : Fin NFILE) (i : Nat) (x : Node) (src : Nat → UInt8) (n : Int32)
    (s : LState) (r : Int) (s' : LState) : Prop :=
  (r < 0 → nodes sb s'.view i = some x ∧ (s'.mem.ftable f).off = (s.mem.ftable f).off) ∧ (0 ≤ n.toInt → r = n.toInt →
      nodes sb s'.view i = some (wrote x (s.mem.ftable f).off.toNat n.toInt.toNat src) ∧
      (s'.mem.ftable f).off.toNat = (s.mem.ftable f).off.toNat + n.toInt.toNat)

/-- The file is writable and takes the first chunk, but not the whole write. -/
def CutShort (x : Node) (e : File) (n : Int32) : Prop :=
  e.writable = true ∧ 0 < n.toInt ∧ Takes x e.off.toNat (min n.toInt.toNat filewriteMax) ∧
    MAXFILE * BSIZE < e.off.toNat + n.toInt.toNat

section Result

variable {n : Int32} {r : Int}

theorem write_zero {off : Nat} (h : off ≤ x.size) : x.write off 0 src = x := by
  have hw : written x.bytes off 0 src = x.bytes := by
    funext p
    rw [written, if_neg (by omega)]
  rw [Node.write, hw, show max x.size (off + 0) = x.size by omega]

theorem wrote_zero {off : Nat} : wrote x off 0 src = x := by
  rw [wrote]
  split
  · next h => exact write_zero h.1
  · rfl

/-- A write that is cut short has moved the offset and returns an error. -/
theorem LoopEnds.cutShort {j' : Nat} (h : LoopEnds sb f ip i x src n.toInt.toNat (s.mem.ftable f).off.toNat 0 j' s')
    (hw : (s.mem.ftable f).writable = true) (hpos : 0 < n.toInt) :
    CutShort x (s.mem.ftable f) n ↔ 0 < j' ∧ j' < n.toInt.toNat := by
  have hbelow := h.below
  constructor
  · rintro ⟨-, -, htake, hbig⟩
    refine ⟨Nat.pos_of_ne_zero fun h0 => ?_, ?_⟩
    · subst h0
      refine h.refused (by omega) ?_
      exact htake
    · refine Nat.lt_of_le_of_ne hbelow fun heq => ?_
      have := (h.first (by omega)).2
      omega
  · rintro ⟨h0, hlt⟩
    obtain ⟨htake, hfit⟩ := h.first h0
    refine ⟨hw, hpos, htake, ?_⟩
    by_contra hbig
    refine h.refused hlt ⟨?_, by omega⟩
    rw [upTo, if_neg (by omega)]
    exact Nat.le_max_right _ _

/-- A write that is cut short returns an error with the offset moved. -/
theorem CutShort.not_allOrNothing (hcut : CutShort x (s.mem.ftable f) n) (h : OpenOn sb s f ip i x)
    (hrun : exec (filewrite f src n) s = .done r s') : ¬ AllOrNothing sb f i x src n s r s' := by
  rintro ⟨hneg, -⟩
  rcases does_exec (filewrite_does h) hrun with ⟨hw, -, -⟩ | ⟨hw, j', rfl, hend⟩
  · rw [hcut.1] at hw
    exact Bool.noConfusion hw
  · obtain ⟨h0, hlt⟩ := (hend.cutShort hw hcut.2.1).mp hcut
    rw [if_neg (by omega)] at hneg
    have hsame := congrArg toNat (hneg (by decide)).2
    rw [hend.offset] at hsame
    omega

/-- **A write to a regular file is all or nothing if and only if it is not cut short.** -/
theorem filewrite_all_or_nothing_iff (h : OpenOn sb s f ip i x) (hrun : exec (filewrite f src n) s = .done r s') :
    AllOrNothing sb f i x src n s r s' ↔ ¬ CutShort x (s.mem.ftable f) n := by
  refine ⟨fun hall hcut => hcut.not_allOrNothing h hrun hall, fun hcut => ?_⟩
  rcases does_exec (filewrite_does h) hrun with ⟨hw, rfl, rfl⟩ | ⟨hw, j', rfl, hend⟩
  · refine ⟨fun _ => ⟨h.node, rfl⟩, fun hn hr => ?_⟩
    rw [← hr] at hn
    exact absurd hn (by decide)
  · have hbelow := hend.below
    by_cases hall : 0 < n.toInt ∧ (j' : Int) = n.toInt
    · refine ⟨fun hneg => absurd hneg (by omega), fun _ _ => ?_⟩
      have hj : j' = n.toInt.toNat := by omega
      obtain ⟨htake, hfit⟩ := hend.first (by omega)
      have hnode := hend.file.node
      have hoff := hend.offset
      rw [upTo, if_neg (by omega), Nat.sub_zero, hj] at hnode
      rw [Nat.sub_zero, hj] at hoff hfit
      rw [wrote, if_pos ⟨htake.1, hfit⟩]
      simp only [zero_add] at hnode
      exact ⟨hnode, hoff⟩
    · -- nothing has been written: the first chunk was refused, or there was none
      have hj : j' = 0 := by
        by_cases hpos : 0 < n.toInt
        · rw [hend.cutShort hw hpos] at hcut
          omega
        · omega
      subst hj
      have hnode := hend.file.node
      have hoff := hend.offset
      refine ⟨fun _ => ⟨hnode, UInt32.toNat_inj.mp hoff⟩, fun hn hr => ?_⟩
      have hzero : n.toInt.toNat = 0 := by
        have hneg : EFBIG < 0 := by decide
        by_cases hz : ((0 : Nat) : Int) = n.toInt
        · omega
        · omega
      rw [hzero, wrote_zero]
      exact ⟨hnode, hoff⟩

end Result

/-! ## Writes that come to their end -/

/-- The file can be locked, and no transaction is going on. -/
structure Ready (ip : Fin NINODE) (s : LState) : Prop where
  ref : 1 ≤ (s.mem.icache ip).ref
  busy : (s.mem.icache ip).busy = false
  valid : (s.mem.icache ip).valid = true
  idle : s.outstanding = 0
  lh : s.lh = []
  logSize : s.logSize = LOGSIZE

theorem Ready.beginOp (h : Ready ip s) : exec beginOp s = .done () (entered s) :=
  exec_beginOp (by rw [h.lh, h.idle]; decide)

theorem Ready.ilock (h : Ready ip s) : exec (ilock ip) (entered s)
      = .done () (setInode (entered s) ip { s.mem.icache ip with busy := true }) := by
  have href : ¬ ((entered s).mem.icache ip).ref < 1 := Int.not_lt.mpr h.ref
  have hbusy : ¬ ((entered s).mem.icache ip).busy = true := by
    rw [show (entered s).mem = s.mem from rfl, h.busy]
    decide
  have hread : exec (ilockRead ip) (setInode (entered s) ip { s.mem.icache ip with busy := true })
      = .done () (setInode (entered s) ip { s.mem.icache ip with busy := true }) := by
    rw [ilockRead, exec_getInode, setInode_same, if_pos h.valid]
    rfl
  rw [Xv6Fs.ilock, exec_getInode, if_neg href, if_neg hbusy]
  exact hread

/-- A chunk comes to its end when the disk has room for it. -/
theorem OpenOn.chunk_total (h : OpenOn sb s f ip i x) (hr : Ready ip s) (src : Nat → UInt8) {n : Nat}
    (hpos : 0 < n) (hn : n ≤ filewriteMax) (hfree : 9 ≤ (freeBlocks sb s.view).length) :
    ∃ r s', exec (filewriteChunk f ip src n) s = .done r s' ∧ ChunkEnds sb f ip i x src n s r s' ∧
      Ready ip s' ∧ (freeBlocks sb s.view).length ≤ (freeBlocks sb s'.view).length + 9 := by
  obtain ⟨h0, hdev, -⟩ := h.alloc
  have hmaxn : filewriteMax ≤ 7 * BSIZE := by decide
  have hn32 : n < 2 ^ 32 := by
    have : 7 * BSIZE < 2 ^ 32 := by decide
    omega
  have hnat : (ofNat n).toNat = n := toNat_ofNat_of_lt' hn32
  generalize hoffd : (s.mem.ftable f).off = off
  have hspan : (span off.toNat n).length ≤ 8 := length_span_le (le_trans hn hmaxn)
  have hgrow := grow_le s.view (dino sb s.view) i (span off.toNat n)
  have hcard := card_writeBlocks sb s.view i off.toNat n
  -- `writei` runs in a transaction of its own
  let s1 := setInode (entered s) ip { s.mem.icache ip with busy := true }
  have hslot1 : s1.mem.icache ip = { s.mem.icache ip with busy := true } := setInode_same
  have hbegun : Begun (writeBlocks sb s.view i off.toNat n) s1 := by
    refine ⟨?_, ?_, ?_, ?_, ?_⟩
    · show 1 ≤ s.outstanding + 1
      rw [hr.idle]
      decide
    · show s.lh.Nodup
      rw [hr.lh]
      exact List.nodup_nil
    · intro b hb
      have hb' : b ∈ s.lh := hb
      rw [hr.lh] at hb'
      exact absurd hb' List.not_mem_nil
    · have : LOGSIZE = 30 := rfl
      omega
    · show _ < s.logSize
      rw [hr.logSize]
      have : LOGSIZE = 30 := rfl
      omega
  have hdin : dino sb s1.view i = (s1.mem.icache ip).din := by
    rw [hslot1]
    exact (h.sync hr.valid).symm
  have hinum : (s1.mem.icache ip).inum = i := by
    rw [hslot1]
    exact h.inum
  have hdisk1 : Disk sb s1.view := h.disk
  have hsuper1 : s1.mem.sb = sb := h.super
  have hfin : ∃ r s2, exec (writei ip src off (ofNat n)) s1 = .done r s2 := by
    refine writei_finishes src hdisk1.layout hdisk1.own hsuper1 hinum hdin h0 hdev fun _ =>
      ⟨hbegun, Room.of_writeBlocks (by rw [hnat]; exact Finset.Subset.refl _), ?_⟩
    rw [hnat]
    show grow s.view (dino sb s.view) i (span off.toNat n) ≤ (freeBlocks sb s.view).length
    omega
  obtain ⟨r, s2, hw⟩ := hfin
  have hkept : (s2.mem.icache ip).busy = true ∧ (s2.mem.icache ip).ref = (s.mem.icache ip).ref := by
    rcases does_exec (writei_rewrites (W := univ) (N := True) hsuper1 hinum hdin h0 hdev (fun _ => room_univ)
      trivial hdisk1.layout hdisk1.own (hdisk1.whole i)) hw with ⟨-, -, rfl⟩ | ⟨-, -, d, g, hs2, -⟩
    · rw [hslot1]
      exact ⟨rfl, rfl⟩
    · have hslot2 : s2.mem.icache ip = { s1.mem.icache ip with din := d } := by
        rw [hs2]
        exact edit_inode s1 ip s2.view s2.lh d
      rw [hslot2, hslot1]
      exact ⟨rfl, rfl⟩
  -- the rest of the chunk cannot stop
  have htail : ∀ g : File → File, ∃ s3, exec (modFile f g >>= fun _ => iunlock ip >>= fun _ => endOp >>=
      fun _ => (pure r : K Int)) s2 = .done r s3 := by
    intro g
    let s3 := setFile s2 f (g (s2.mem.ftable f))
    have hlock : exec (iunlock ip) s3 = .done () (setInode s3 ip { s2.mem.icache ip with busy := false }) := by
      rw [iunlock, exec_getInode, if_neg]
      · rfl
      · show ¬ ((s2.mem.icache ip).busy = false ∨ (s2.mem.icache ip).ref < 1)
        rw [hkept.1, hkept.2]
        have := hr.ref
        rintro (hf | hf)
        · exact Bool.noConfusion hf
        · omega
    exact ⟨_, exec_bind_done.mpr ⟨(), s3, rfl, exec_bind_done.mpr ⟨(), _, hlock,
      exec_bind_done.mpr ⟨(), _, exec_endOp _, rfl⟩⟩⟩⟩
  obtain ⟨s', hend⟩ := htail fun x => if 0 < r then { x with off := x.off + ofNat r.toNat } else x
  have hrun : exec (filewriteChunk f ip src n) s = .done r s' := by
    refine exec_bind_done.mpr ⟨(), entered s, hr.beginOp, exec_bind_done.mpr ⟨(), s1, hr.ilock,
      exec_bind_done.mpr ⟨s.mem.ftable f, s1, rfl, exec_bind_done.mpr ⟨r, s2, ?_, hend⟩⟩⟩⟩
    rw [hoffd]
    exact hw
  have hends : ChunkEnds sb f ip i x src n s r s' := does_exec (h.chunk hn32 hpos) hrun
  obtain ⟨hset, hcase⟩ := hends
  refine ⟨r, s', hrun, ⟨hset, hcase⟩, ⟨?_, ?_, ?_, (hset.idle hr.idle).1, (hset.idle hr.idle).2,
    hset.logSize.trans hr.logSize⟩, ?_⟩
  · rw [hset.slot]
    exact hr.ref
  · rw [hset.slot]
  · rw [hset.slot]
  · rcases hcase with ⟨-, -, hview, -⟩ | ⟨-, -, ⟨d, hre⟩, -⟩
    · rw [hview]
      omega
    · rw [hre.free, List.length_drop, hnat, hoffd]
      omega

/-- The loop comes to its end when the disk has room for its chunks. -/
theorem filewriteLoop_total {n : Nat} (rounds j : Nat) (s : LState) (x : Node) (h : OpenOn sb s f ip i x)
    (hr : Ready ip s) (hfree : 9 * ((n - j) / filewriteMax + 1) ≤ (freeBlocks sb s.view).length) :
    ∃ j' s', exec (filewriteLoop f ip src n rounds j) s = .done j' s' := by
  induction rounds generalizing j s x with
  | zero =>
    exact ⟨j, s, rfl⟩
  | succ rounds ih =>
    rw [Xv6Sys.filewriteLoop]
    split_ifs with hlt
    · have hmax : filewriteMax = 6656 := rfl
      rw [hmax] at hfree ⊢
      obtain ⟨r, s1, hrun, ⟨-, hcase⟩, hr1, hfree1⟩ := h.chunk_total hr (fun m => src (j + m))
        (by omega : 0 < min (n - j) 6656) (Nat.min_le_right _ _) (by omega)
      rcases hcase with ⟨-, rfl, -⟩ | ⟨-, rfl, -, -, hopen⟩
      · exact ⟨j, s1, exec_bind_done.mpr ⟨-1, s1, hrun, rfl⟩⟩
      · -- after the last chunk the loop ends without another transaction
        have hrest : ∃ j' s', exec (filewriteLoop f ip src n rounds (j + min (n - j) 6656)) s1 = .done j' s' := by
          by_cases hlast : n - j ≤ 6656
          · rw [show j + min (n - j) 6656 = n by omega]
            cases rounds with
            | zero => exact ⟨n, s1, rfl⟩
            | succ rounds =>
              rw [Xv6Sys.filewriteLoop, if_neg (lt_irrefl n)]
              exact ⟨n, s1, rfl⟩
          · exact ih _ s1 _ hopen hr1 (by rw [hmax]; omega)
        obtain ⟨j', s', hloop⟩ := hrest
        refine ⟨j', s', exec_bind_done.mpr ⟨_, s1, hrun, ?_⟩⟩
        rw [if_neg (by omega), if_neg (fun hne => hne rfl), Int.toNat_natCast]
        exact hloop
    · exact ⟨j, s, rfl⟩

/-! ## A new disk -/

/-- The first entry of the file table. -/
def firstFile : Fin NFILE := ⟨0, Nat.zero_lt_succ _⟩

/-- The disk `img` at rest, with a file open for writing on inode `j`. -/
def writing (img : Nat → Block) (j : Nat) : LState where
  view := img
  lh := []
  logSize := LOGSIZE
  outstanding := 0
  mem := { Mem.blank with
    sb := Xv6Mkfs.sb
    icache := fun _ => ⟨1, j, 1, false, true, dino Xv6Mkfs.sb img j⟩
    ftable := fun _ => ⟨.inode, 1, true, true, none, some firstInode, 0⟩ }
  input := fun _ => 0
  passed := fun _ => 0

theorem writing_openOn {img : Nat → Block} {j : Nat} (hd : Disk Xv6Mkfs.sb img)
    (htype : (dino Xv6Mkfs.sb img j).type = T_FILE) (hsize : (dino Xv6Mkfs.sb img j).size = 0) :
    ∃ x, x.size = 0 ∧ OpenOn Xv6Mkfs.sb (writing img j) firstFile firstInode j x := by
  have hnode : nodes Xv6Mkfs.sb img j = some _ := if_neg (by rw [htype]; decide)
  refine ⟨_, ?_, hd, rfl, rfl, rfl, rfl, fun _ => rfl, hnode, htype⟩
  rw [hsize]
  rfl

/-- A write to the new file returns, whatever its length. -/
theorem writing_total {img : Nat → Block} {j : Nat} {x : Node}
    (h : OpenOn Xv6Mkfs.sb (writing img j) firstFile firstInode j x)
    (hfree : 1000 ≤ (freeBlocks Xv6Mkfs.sb img).length) (src : Nat → UInt8) {n : Int32}
    (hn : n.toInt ≤ 300000) : ∃ r s', exec (filewrite firstFile src n) (writing img j) = .done r s' := by
  have hready : Ready firstInode (writing img j) := ⟨le_refl _, rfl, rfl, rfl, rfl, rfl⟩
  have hroom : 9 * ((n.toInt.toNat - 0) / filewriteMax + 1) ≤ (freeBlocks Xv6Mkfs.sb img).length := by
    have hmax : filewriteMax = 6656 := rfl
    rw [hmax]
    omega
  have hloop : ∃ j' s', exec (filewriteLoop firstFile firstInode src n.toInt.toNat n.toInt.toNat 0)
      (writing img j) = .done j' s' := filewriteLoop_total n.toInt.toNat 0 (writing img j) x h hready hroom
  obtain ⟨j', s', hloop⟩ := hloop
  have heq : exec (filewrite firstFile src n) (writing img j)
      = exec (filewriteLoop firstFile firstInode src n.toInt.toNat n.toInt.toNat 0 >>= fun i =>
          pure (if (i : Int) = n.toInt then n.toInt else EFBIG)) (writing img j) := rfl
  rw [heq]
  exact ⟨_, s', exec_bind_done.mpr ⟨j', s', hloop, rfl⟩⟩

theorem filewrite_all_or_nothing_byte : ∃ img j x r s', Xv6Mkfs.mkfs (Xv6Mkfs.files 1) = some img ∧
    exec (filewrite firstFile (fun _ => 65) 1) (writing img j) = .done r s' ∧
    AllOrNothing Xv6Mkfs.sb firstFile j x (fun _ => 65) 1 (writing img j) r s' := by
  obtain ⟨img, j, hmk, hd, htype, hsize, hfree⟩ := Xv6Mkfs.mkfs_empty_file
  obtain ⟨x, -, h⟩ := writing_openOn hd htype hsize
  obtain ⟨r, s', hrun⟩ := writing_total h hfree (fun _ => 65) (show (1 : Int32).toInt ≤ 300000 by decide)
  refine ⟨img, j, x, r, s', hmk, hrun, (filewrite_all_or_nothing_iff h hrun).mpr ?_⟩
  rintro ⟨-, -, -, hbig⟩
  exact absurd hbig (show ¬ MAXFILE * BSIZE < (0 : UInt32).toNat + (1 : Int32).toInt.toNat by decide)

/-- **A write of 300000 bytes** to an empty file writes the chunks that fit in the largest file, and fails. -/
theorem filewrite_cut_short : ∃ img j x r s', Xv6Mkfs.mkfs (Xv6Mkfs.files 1) = some img ∧
    OpenOn Xv6Mkfs.sb (writing img j) firstFile firstInode j x ∧
    exec (filewrite firstFile (fun _ => 65) 300000) (writing img j) = .done r s' ∧
    ¬ AllOrNothing Xv6Mkfs.sb firstFile j x (fun _ => 65) 300000 (writing img j) r s' := by
  obtain ⟨img, j, hmk, hd, htype, hsize, hfree⟩ := Xv6Mkfs.mkfs_empty_file
  obtain ⟨x, hx, h⟩ := writing_openOn hd htype hsize
  obtain ⟨r, s', hrun⟩ := writing_total h hfree (fun _ => 65) (show (300000 : Int32).toInt ≤ 300000 by decide)
  refine ⟨img, j, x, r, s', hmk, h, hrun, CutShort.not_allOrNothing ?_ h hrun⟩
  refine ⟨rfl, by decide, ⟨Nat.zero_le _, ?_⟩, ?_⟩
  · show (0 : UInt32).toNat + min (300000 : Int32).toInt.toNat filewriteMax ≤ MAXFILE * BSIZE
    decide
  · show MAXFILE * BSIZE < (0 : UInt32).toNat + (300000 : Int32).toInt.toNat
    decide


end Xv6Own
