import Xv6.SysfileCodeProofs

/-!
# `sys_lseek` on a device

A device inode has size 0, so that `sys_lseek` takes every offset above 0 for one past the end of a file and
writes zeros up to it: through `filewrite` and the device branch of `writei`, to whatever the device is. The
console and the serial line get the characters; a raw disk gets them at the old offset of the descriptor.

The machine here is what the devices show: the bytes on the two disks, the bytes the buffer cache holds by
minor number, and a record of the characters and the blocks that have been sent. Both disks are there. `writei`
returns the length of the chunk or -1 here, so that `filewrite` does not come to its panic "short filewrite".
-/

namespace Xv6Device

open Xv6Disk Xv6Sys List
open Xv6Fs (CONSOLE DISK DEVNULL diskSize)
open Xv6Kernel (PGSIZE)

structure Machine where
  /-- disk 0 and disk 1 -/
  disk : Bool → Nat → UInt8
  /-- what the buffer cache has for each minor number -/
  cache : Int16 → Nat → UInt8
  /-- the characters `consputc` has sent, with the minor number of the terminal -/
  sent : List (Int16 × UInt8)
  /-- the blocks `bwrite` has sent -/
  written : List (Int16 × Nat)

/-- An inode of type `T_DEV`. -/
structure Special where
  major : Int16
  minor : Int16
  size : UInt32

/-- An open file on a device. -/
structure Open where
  writable : Bool
  off : UInt32
  ip : Special

/-! ## The device switch -/

/-- The disk `idestart` selects, by the lowest bit of the device number. -/
def unit (minor : Int16) : Bool :=
  minor &&& 1 = 1

/-- `memmove` into the buffer of the block at `off`, and `bwrite` of the whole block. -/
def Machine.put (s : Machine) (minor : Int16) (off m : Nat) (src : Nat → UInt8) : Machine :=
  let cache := fun d a => if d = minor ∧ off ≤ a ∧ a < off + m then src (a - off) else s.cache d a
  { s with
    cache := cache
    disk := fun u a => if u = unit minor ∧ a / BSIZE = off / BSIZE then cache minor a else s.disk u a
    written := s.written ++ [(minor, off / BSIZE)] }

def idewriteLoop (minor : Int16) (src : Nat → UInt8) (n : Nat) : (rounds tot off : Nat) → Machine → Machine
  | 0, _, _, s => s
  | r + 1, tot, off, s =>
    if tot < n then
      let m := min (n - tot) (BSIZE - off % BSIZE)
      idewriteLoop minor src n r (tot + m) (off + m) (s.put minor off m fun j => src (tot + j))
    else s

def idewrite (ip : Special) (src : Nat → UInt8) (off : UInt32) (n : Nat) (s : Machine) : Int × Machine :=
  if diskSize < off then (-1, s)
  else if diskSize < off + UInt32.ofNat n then (-1, s)
  -- the loop ends inside the disk, so that the size of the inode stays
  else (n, idewriteLoop ip.minor src n n 0 off.toNat s)

/-- `consolewrite`: one `consputc` for each character. -/
def consolewrite (ip : Special) (src : Nat → UInt8) (n : Nat) (s : Machine) : Int × Machine :=
  (n, { s with sent := s.sent ++ (range n).map fun i => (ip.minor, src i) })

def nullwrite (n : Nat) (s : Machine) : Int × Machine :=
  (n, s)

/-- `writei` of a device. -/
def writei (ip : Special) (src : Nat → UInt8) (off : UInt32) (n : Nat) (s : Machine) : Int × Machine :=
  if ip.major = CONSOLE then consolewrite ip src n s
  else if ip.major = DISK then idewrite ip src off n s
  else if ip.major = DEVNULL then nullwrite n s
  else (-1, s)

/-! ## `filewrite` and `sys_lseek` -/

/-- The loop of `filewrite`, from byte `i` on. -/
def filewriteLoop (src : Nat → UInt8) (n : Nat) :
    (rounds i : Nat) → Open → Machine → Nat × Open × Machine
  | 0, i, f, s => (i, f, s)
  | k + 1, i, f, s =>
    if i < n then
      let n1 := min (n - i) filewriteMax
      let x := writei f.ip (fun j => src (i + j)) f.off n1 s
      let f' := if 0 < x.1 then { f with off := f.off + UInt32.ofNat x.1.toNat } else f
      if x.1 < 0 then (i, f', x.2) else filewriteLoop src n k (i + x.1.toNat) f' x.2
    else (i, f, s)

def filewrite (f : Open) (src : Nat → UInt8) (n : Int) (s : Machine) : Int × Open × Machine :=
  if f.writable = false then (EBADF, f, s)
  else
    let x := filewriteLoop src n.toNat n.toNat 0 f s
    (if (x.1 : Int) = n then n else EFBIG, x.2.1, x.2.2)

/-- The loop of `sys_lseek`: all that is missing is written, one page less each round. -/
def lseekFill (src : Nat → UInt8) : (rounds : Nat) → (zerosize : Int) → Open → Machine → Open × Machine
  | 0, _, f, s => (f, s)
  | k + 1, zerosize, f, s =>
    if 0 < zerosize then
      let x := filewrite f src zerosize s
      lseekFill src k (zerosize - PGSIZE) x.2.1 x.2.2
    else (f, s)

/-- `newoff`; `uninit` is its value when `base` is none of the three. -/
def lseekTarget (f : Open) (offset base uninit : Int32) : Int32 :=
  if base = SEEK_SET then offset
  else if base = SEEK_CUR then (f.off + offset.toUInt32).toInt32
  else if base = SEEK_END then (f.ip.size + offset.toUInt32).toInt32
  else uninit

/-- `sys_lseek`. `page` is what `kalloc` finds: nothing, and then `kfree` of the null pointer panics, or a page
    with the bytes `after` behind it. -/
def sysLseek (page : Option (Nat → UInt8)) (f : Open) (offset base uninit : Int32) (s : Machine) :
    Except String (Int × Open × Machine) :=
  let newoff := lseekTarget f offset base uninit
  if newoff.toInt < 0 then .ok (EINVAL, f, s)
  else if (f.ip.size.toNat : Int) < newoff.toInt then
    match page with
    | none => .error "kfree"
    | some after =>
      let zerosize := newoff.toInt - f.ip.size.toNat
      let x := lseekFill (fun j => if j < PGSIZE then 0 else after j) (zerosize.toNat / PGSIZE + 1) zerosize f s
      .ok (newoff.toInt, { x.1 with off := newoff.toUInt32 }, x.2)
  else .ok (newoff.toInt, { f with off := newoff.toUInt32 }, s)

/-! ## What has been sent -/

/-- How much has been sent. -/
def Machine.outputs (s : Machine) : Nat :=
  s.sent.length + s.written.length

section Outputs

variable {ip : Special} {src : Nat → UInt8} {off : UInt32} {n : Nat} {s : Machine} {f : Open}

/-- A write of `n` bytes at `off` does something: the console prints, and a disk stores what lies inside. -/
def Special.acts (ip : Special) (off : UInt32) (n : Nat) : Prop :=
  ip.major = CONSOLE ∨ (ip.major = DISK ∧ off.toNat + n ≤ FSSIZE * BSIZE)

theorem idewriteLoop_outputs : ∀ (r tot off : Nat) (s : Machine),
    s.outputs ≤ (idewriteLoop ip.minor src n r tot off s).outputs := by
  intro r
  induction r with
  | zero => exact fun _ _ _ => le_refl _
  | succ r ih =>
    intro tot off s
    rw [idewriteLoop]
    split
    · refine le_trans ?_ (ih _ _ _)
      simp only [Machine.outputs, Machine.put, length_append, length_singleton]
      omega
    · exact le_refl _

/-- Both tests of `idewrite`, in numbers. -/
theorem ide_range (hn : n < 2 ^ 31) :
    (¬ diskSize < off ∧ ¬ diskSize < off + UInt32.ofNat n) ↔ off.toNat + n ≤ FSSIZE * BSIZE := by
  have hsize : diskSize.toNat = FSSIZE * BSIZE := rfl
  have hmax : FSSIZE * BSIZE < 2 ^ 31 := by decide
  have hoff := off.toNat_lt
  rw [UInt32.lt_iff_toNat_lt, UInt32.lt_iff_toNat_lt, UInt32.toNat_add, UInt32.toNat_ofNat', hsize]
  omega

theorem idewrite_of_fits (hn : n < 2 ^ 31) (h : off.toNat + n ≤ FSSIZE * BSIZE) :
    idewrite ip src off n s = ((n : Int), idewriteLoop ip.minor src n n 0 off.toNat s) := by
  obtain ⟨h1, h2⟩ := (ide_range hn).mpr h
  rw [idewrite, if_neg h1, if_neg h2]

theorem idewrite_of_not_fits (hn : n < 2 ^ 31) (h : ¬ off.toNat + n ≤ FSSIZE * BSIZE) :
    idewrite ip src off n s = (-1, s) := by
  rw [← ide_range hn, not_and_or, not_not, not_not] at h
  rw [idewrite]
  split
  · rfl
  · rcases h with h | h
    · contradiction
    · rw [if_pos h]

theorem writei_outputs : s.outputs ≤ (writei ip src off n s).2.outputs := by
  rw [writei]
  split_ifs with _ _ _
  · simp only [consolewrite, Machine.outputs, length_append]
    omega
  · rw [idewrite]
    split_ifs with _ _
    · exact le_refl _
    · exact le_refl _
    · exact idewriteLoop_outputs _ _ _ _
  · exact le_refl _
  · exact le_refl _

/-- A write that acts is recorded. -/
theorem writei_acts (src : Nat → UInt8) (s : Machine) (hpos : 0 < n) (hn : n < 2 ^ 31) (h : ip.acts off n) :
    s.outputs < (writei ip src off n s).2.outputs := by
  rcases h with hcons | ⟨hdisk, hfit⟩
  · rw [writei, if_pos hcons]
    simp only [consolewrite, Machine.outputs, length_append, length_map, length_range]
    omega
  · have hne : ip.major ≠ CONSOLE := by rw [hdisk]; decide
    rw [writei, if_neg hne, if_pos hdisk, idewrite_of_fits hn hfit]
    obtain ⟨k, rfl⟩ : ∃ k, n = k + 1 := ⟨n - 1, by omega⟩
    rw [idewriteLoop, if_pos (by omega)]
    refine lt_of_lt_of_le ?_ (idewriteLoop_outputs _ _ _ _)
    simp only [Machine.outputs, Machine.put, length_append, length_singleton]
    omega

/-- A write that does not act leaves everything, and is refused by a disk. -/
theorem writei_quiet (src : Nat → UInt8) (s : Machine) (hn : n < 2 ^ 31) (h : ¬ ip.acts off n) :
    (writei ip src off n s).2 = s ∧ (ip.major = DISK → (writei ip src off n s).1 = -1) := by
  have hcons : ip.major ≠ CONSOLE := fun hc => h (.inl hc)
  rw [writei, if_neg hcons]
  split
  · next hdisk =>
    rw [idewrite_of_not_fits hn fun hfit => h (.inr ⟨hdisk, hfit⟩)]
    exact ⟨rfl, fun _ => rfl⟩
  · next hdisk =>
    refine ⟨?_, fun hd => absurd hd hdisk⟩
    split
    · rfl
    · rfl

end Outputs

/-! ## Whole calls of `filewrite` -/

section Filewrite

variable {src : Nat → UInt8} {f : Open} {s : Machine}

theorem filewriteLoop_keeps (n : Nat) : ∀ (k i : Nat) (f : Open) (s : Machine),
    (filewriteLoop src n k i f s).2.1.ip = f.ip ∧ (filewriteLoop src n k i f s).2.1.writable = f.writable ∧
      s.outputs ≤ (filewriteLoop src n k i f s).2.2.outputs := by
  intro k
  induction k with
  | zero => exact fun _ _ _ => ⟨rfl, rfl, le_refl _⟩
  | succ k ih =>
    intro i f s
    rw [filewriteLoop]
    split
    · dsimp only
      generalize hx : writei f.ip (fun j => src (i + j)) f.off (min (n - i) filewriteMax) s = x
      have hout : s.outputs ≤ x.2.outputs := hx ▸ writei_outputs
      generalize hf : (if 0 < x.1 then { f with off := f.off + UInt32.ofNat x.1.toNat } else f) = f'
      have hkeep : f'.ip = f.ip ∧ f'.writable = f.writable := by
        rw [← hf]
        split
        · exact ⟨rfl, rfl⟩
        · exact ⟨rfl, rfl⟩
      split
      · exact ⟨hkeep.1, hkeep.2, hout⟩
      · obtain ⟨h1, h2, h3⟩ := ih (i + x.1.toNat) f' x.2
        exact ⟨h1.trans hkeep.1, h2.trans hkeep.2, hout.trans h3⟩
    · exact ⟨rfl, rfl, le_refl _⟩

theorem filewrite_keeps (f : Open) (src : Nat → UInt8) (s : Machine) (n : Int) :
    (filewrite f src n s).2.1.ip = f.ip ∧ (filewrite f src n s).2.1.writable = f.writable ∧
      s.outputs ≤ (filewrite f src n s).2.2.outputs := by
  rw [filewrite]
  split
  · exact ⟨rfl, rfl, le_refl _⟩
  · exact filewriteLoop_keeps _ _ _ _ _

/-- `filewrite` is recorded when its first chunk acts. -/
theorem filewrite_acts {n : Int} (hw : f.writable = true) (hpos : 0 < n)
    (h : f.ip.acts f.off (min n.toNat filewriteMax)) : s.outputs < (filewrite f src n s).2.2.outputs := by
  have hmax : filewriteMax = 6656 := rfl
  rw [filewrite, if_neg (by rw [hw]; decide)]
  obtain ⟨k, hk⟩ : ∃ k, n.toNat = k + 1 := ⟨n.toNat - 1, by omega⟩
  rw [hk] at h ⊢
  rw [filewriteLoop, if_pos (by omega), Nat.sub_zero]
  dsimp only
  have hout := writei_acts (fun j => src (0 + j)) s (by omega) (by omega) h
  split
  · exact hout
  · exact lt_of_lt_of_le hout (filewriteLoop_keeps _ _ _ _ _).2.2

/-- A device that is neither a terminal nor a disk takes any number of chunks and shows nothing. -/
theorem filewriteLoop_mute (n : Nat) : ∀ (k i : Nat) (f : Open),
    f.ip.major ≠ CONSOLE → f.ip.major ≠ DISK → (filewriteLoop src n k i f s).2.2 = s := by
  intro k
  induction k with
  | zero => exact fun _ _ _ _ => rfl
  | succ k ih =>
    intro i f hcons hdisk
    have hmax : filewriteMax = 6656 := rfl
    have hacts : ¬ f.ip.acts f.off (min (n - i) filewriteMax) := fun h => h.elim hcons fun h => hdisk h.1
    have hquiet := (writei_quiet (fun j => src (i + j)) s (by omega) hacts).1
    rw [filewriteLoop]
    split
    · dsimp only
      split
      · exact hquiet
      · rw [hquiet]
        split
        · exact ih _ _ hcons hdisk
        · exact ih _ _ hcons hdisk
    · rfl

/-- A disk refuses the first chunk, and nothing has happened. -/
theorem filewrite_refused {n : Int} (hpos : 0 < n) (hdisk : f.ip.major = DISK)
    (h : ¬ f.ip.acts f.off (min n.toNat filewriteMax)) : (filewrite f src n s).2 = (f, s) := by
  have hmax : filewriteMax = 6656 := rfl
  rw [filewrite]
  split
  · rfl
  · obtain ⟨k, hk⟩ : ∃ k, n.toNat = k + 1 := ⟨n.toNat - 1, by omega⟩
    rw [hk] at h ⊢
    rw [filewriteLoop, if_pos (by omega), Nat.sub_zero]
    dsimp only
    obtain ⟨hs, hr⟩ := writei_quiet (fun j => src (0 + j)) s (by omega) h
    rw [hr hdisk, hs]
    rfl

end Filewrite

/-! ## The zeros of `sys_lseek` -/

section Fill

variable (src : Nat → UInt8)

/-- The length of the last round of `sys_lseek`. -/
def lastRound (zerosize : Int) : Nat :=
  (zerosize.toNat - 1) % PGSIZE + 1

theorem lastRound_step {z : Int} (h : (PGSIZE : Int) < z) : lastRound (z - PGSIZE) = lastRound z := by
  simp only [lastRound, PGSIZE] at h ⊢
  omega

theorem lastRound_le {z : Int} (h : 0 < z) : lastRound z ≤ min z.toNat filewriteMax := by
  have hmax : filewriteMax = 6656 := rfl
  simp only [lastRound, PGSIZE]
  omega

theorem lastRound_small {z : Int} (h : 0 < z) (hle : z ≤ PGSIZE) : min z.toNat filewriteMax = lastRound z := by
  have hmax : filewriteMax = 6656 := rfl
  simp only [lastRound, PGSIZE] at hle ⊢
  omega

/-- A shorter write at the same place acts if a longer one does. -/
theorem Special.acts.mono {ip : Special} {off : UInt32} {m n : Nat} (h : ip.acts off n) (hle : m ≤ n) : ip.acts off m :=
  h.imp id fun ⟨hd, hfit⟩ => ⟨hd, by omega⟩

theorem lseekFill_outputs : ∀ (k : Nat) (z : Int) (f : Open) (s : Machine),
    s.outputs ≤ (lseekFill src k z f s).2.outputs := by
  intro k
  induction k with
  | zero => exact fun _ _ _ => le_refl _
  | succ k ih =>
    intro z f s
    rw [lseekFill]
    split
    · exact (filewrite_keeps f src s z).2.2.trans (ih _ _ _)
    · exact le_refl _

/-- The zeros are recorded if the shortest round would act at the offset of the descriptor: it is refused the
    longer ones and comes to that one, or one of the longer ones has acted. -/
theorem lseekFill_acts : ∀ (k : Nat) (z : Int) (f : Open) (s : Machine), z.toNat / PGSIZE < k → 0 < z →
    f.writable = true → f.ip.acts f.off (lastRound z) → s.outputs < (lseekFill src k z f s).2.outputs := by
  intro k
  induction k with
  | zero => exact fun _ _ _ h => absurd h (Nat.not_lt_zero _)
  | succ k ih =>
    intro z f s hk hpos hw h
    rw [lseekFill, if_pos hpos]
    dsimp only
    by_cases hfirst : f.ip.acts f.off (min z.toNat filewriteMax)
    · exact lt_of_lt_of_le (filewrite_acts hw hpos hfirst) (lseekFill_outputs _ _ _ _ _)
    · have hlong : (PGSIZE : Int) < z := by
        by_contra hle
        rw [lastRound_small hpos (by omega)] at hfirst
        exact hfirst h
      have hdisk : f.ip.major = DISK := by
        rcases h with hc | hd
        · exact absurd (.inl hc) hfirst
        · exact hd.1
      rw [filewrite_refused hpos hdisk hfirst]
      refine ih _ _ _ ?_ (by omega) hw (lastRound_step hlong ▸ h)
      simp only [PGSIZE] at hk hlong ⊢
      omega

/-- Otherwise the zeros leave the machine alone. -/
theorem lseekFill_quiet : ∀ (k : Nat) (z : Int) (f : Open) (s : Machine),
    (f.writable = true → ¬ f.ip.acts f.off (lastRound z)) →
    (lseekFill src k z f s).2 = s ∧ ∃ o, (lseekFill src k z f s).1 = { f with off := o } := by
  intro k
  induction k with
  | zero => exact fun _ f _ _ => ⟨rfl, f.off, rfl⟩
  | succ k ih =>
    intro z f s h
    rw [lseekFill]
    split
    · next hpos =>
        dsimp only
        by_cases hw : f.writable = true
        · have hcons : f.ip.major ≠ CONSOLE := fun hc => h hw (.inl hc)
          by_cases hdisk : f.ip.major = DISK
          · rw [filewrite_refused hpos hdisk fun ha => h hw (ha.mono (lastRound_le hpos))]
            by_cases hlong : (PGSIZE : Int) < z
            · exact ih _ _ _ (lastRound_step hlong ▸ h)
            · -- this was the last round
              have hdone : ¬ 0 < z - PGSIZE := by omega
              cases k with
              | zero => exact ⟨rfl, f.off, rfl⟩
              | succ k => rw [lseekFill, if_neg hdone]; exact ⟨rfl, f.off, rfl⟩
          · have hne : ¬ f.writable = false := by rw [hw]; decide
            have hsame : (filewrite f src z s).2.2 = s := by
              rw [filewrite, if_neg hne]
              exact filewriteLoop_mute _ _ _ _ hcons hdisk
            obtain ⟨hip, hwr, _⟩ := filewrite_keeps f src s z
            rw [hsame]
            generalize (filewrite f src z s).2.1 = g at hip hwr
            obtain ⟨h1, o, h2⟩ := ih (z - PGSIZE) g s fun _ ha =>
              ha.elim (hip ▸ hcons) fun hd => (hip ▸ hdisk) hd.1
            refine ⟨h1, o, ?_⟩
            rw [h2, hip, hwr]
        · have hro : f.writable = false := Bool.eq_false_iff.mpr hw
          rw [filewrite, if_pos hro]
          exact ih _ _ _ fun hw' => absurd hw' hw
    · exact ⟨rfl, f.off, rfl⟩

end Fill

/-! ## A write to a raw disk -/

section RawWrite

variable {src : Nat → UInt8} {n : Nat}

/-- The cache `c` with the `m` bytes of `src` at `off` of `minor`. -/
def stored (c : Int16 → Nat → UInt8) (minor : Int16) (off m : Nat) (src : Nat → UInt8) : Int16 → Nat → UInt8 :=
  fun d a => if d = minor ∧ off ≤ a ∧ a < off + m then src (a - off) else c d a

theorem stored_zero (c : Int16 → Nat → UInt8) (minor : Int16) (off : Nat) (src : Nat → UInt8) :
    stored c minor off 0 src = c := by
  funext d a
  exact if_neg fun h => by omega

/-- Two pieces after each other are one. -/
theorem stored_stored (c : Int16 → Nat → UInt8) (minor : Int16) (off l m i : Nat) (src : Nat → UInt8) :
    stored (stored c minor off l fun j => src (i + j)) minor (off + l) m (fun j => src (i + l + j)) =
      stored c minor off (l + m) fun j => src (i + j) := by
  funext d a
  simp only [stored]
  by_cases hd : d = minor
  · by_cases h2 : off + l ≤ a ∧ a < off + l + m
    · have h12 : off ≤ a ∧ a < off + (l + m) := by omega
      rw [if_pos ⟨hd, h2⟩, if_pos ⟨hd, h12⟩]
      congr 1
      omega
    · rw [if_neg fun h => h2 h.2]
      by_cases h1 : off ≤ a ∧ a < off + l
      · have h12 : off ≤ a ∧ a < off + (l + m) := by omega
        rw [if_pos ⟨hd, h1⟩, if_pos ⟨hd, h12⟩]
      · have h12 : ¬ (off ≤ a ∧ a < off + (l + m)) := by omega
        rw [if_neg fun h => h1 h.2, if_neg fun h => h12 h.2]
  · rw [if_neg fun h => hd h.1, if_neg fun h => hd h.1, if_neg fun h => hd h.1]

/-- `idewrite` stores the bytes that are left, block by block. -/
theorem idewriteLoop_cache (minor : Int16) (r tot off : Nat) (s : Machine) (hr : n - tot ≤ r) :
    (idewriteLoop minor src n r tot off s).cache = stored s.cache minor off (n - tot) fun j => src (tot + j) := by
  induction r generalizing tot off s with
  | zero =>
    rw [Nat.le_zero.mp hr, stored_zero]
    rfl
  | succ r ih =>
    rw [idewriteLoop]
    split
    · next hlt =>
        have hB : BSIZE = 1024 := rfl
        have hmod : off % BSIZE < BSIZE := Nat.mod_lt _ (by decide)
        generalize hm : min (n - tot) (BSIZE - off % BSIZE) = m
        rw [ih _ _ _ (by omega)]
        have hput : (s.put minor off m fun j => src (tot + j)).cache =
            stored s.cache minor off m fun j => src (tot + j) := rfl
        rw [hput, stored_stored]
        congr 1
        omega
    · next hge =>
        have hdone : n - tot = 0 := by omega
        rw [hdone, stored_zero]

/-- The block of byte `a` has one of the `m` bytes from `off` on. -/
def Touched (off m a : Nat) : Prop := ∃ b, off ≤ b ∧ b < off + m ∧ b / BSIZE = a / BSIZE

instance (off m a : Nat) : Decidable (Touched off m a) :=
  decidable_of_iff (0 < m ∧ off / BSIZE ≤ a / BSIZE ∧ a / BSIZE ≤ (off + m - 1) / BSIZE) <| by
    unfold Touched BSIZE
    constructor
    · rintro ⟨hm, hlo, hhi⟩
      exact ⟨max off (a / 1024 * 1024), le_max_left _ _, by omega, by omega⟩
    · rintro ⟨b, hlo, hhi, hb⟩
      exact ⟨by omega, by omega, by omega⟩

theorem not_touched_zero {off a : Nat} : ¬ Touched off 0 a := by
  rintro ⟨b, hlo, hhi, -⟩
  omega

/-- Two pieces after each other. -/
theorem touched_add {off l m a : Nat} : Touched off (l + m) a ↔ Touched off l a ∨ Touched (off + l) m a := by
  constructor
  · rintro ⟨b, hlo, hhi, hb⟩
    by_cases hl : b < off + l
    · exact .inl ⟨b, hlo, hl, hb⟩
    · exact .inr ⟨b, not_lt.mp hl, by omega, hb⟩
  · rintro (⟨b, hlo, hhi, hb⟩ | ⟨b, hlo, hhi, hb⟩)
    · exact ⟨b, hlo, by omega, hb⟩
    · exact ⟨b, by omega, by omega, hb⟩

/-- Inside one block. -/
theorem touched_block {off m a : Nat} (hm : 0 < m) (hin : off % BSIZE + m ≤ BSIZE) :
    Touched off m a ↔ a / BSIZE = off / BSIZE := by
  unfold Touched
  unfold BSIZE at hin ⊢
  constructor
  · rintro ⟨b, hlo, hhi, hb⟩
    omega
  · intro ha
    exact ⟨off, le_rfl, by omega, ha.symm⟩

/-- The disk when the blocks of the `m` bytes from `off` on have been sent from the cache `c`. -/
def synced (disk : Bool → Nat → UInt8) (c : Int16 → Nat → UInt8) (minor : Int16) (off m : Nat) : Bool → Nat → UInt8 :=
  fun u a => if u = unit minor ∧ Touched off m a then c minor a else disk u a

theorem synced_zero (disk : Bool → Nat → UInt8) (c : Int16 → Nat → UInt8) (minor : Int16) (off : Nat) :
    synced disk c minor off 0 = disk := by
  funext u a
  exact if_neg fun h => not_touched_zero h.2

/-- What the second piece does not touch it leaves as the first has sent it. -/
theorem synced_synced (disk : Bool → Nat → UInt8) (c : Int16 → Nat → UInt8) (minor : Int16) (off l m : Nat)
    (src : Nat → UInt8) : synced (synced disk c minor off l) (stored c minor (off + l) m src) minor (off + l) m =
      synced disk (stored c minor (off + l) m src) minor off (l + m) := by
  funext u a
  simp only [synced, touched_add]
  by_cases h2 : u = unit minor ∧ Touched (off + l) m a
  · rw [if_pos h2, if_pos ⟨h2.1, .inr h2.2⟩]
  · rw [if_neg h2]
    by_cases h1 : u = unit minor ∧ Touched off l a
    · have hout : ¬ (minor = minor ∧ off + l ≤ a ∧ a < off + l + m) :=
        fun ha => h2 ⟨h1.1, a, ha.2.1, ha.2.2, rfl⟩
      rw [if_pos h1, if_pos ⟨h1.1, .inl h1.2⟩, stored, if_neg hout]
    · rw [if_neg h1, if_neg fun h => h.2.elim (fun hl => h1 ⟨h.1, hl⟩) fun hr => h2 ⟨h.1, hr⟩]

/-- `idewrite` sends every block that it stores into. -/
theorem idewriteLoop_disk (minor : Int16) (r tot off : Nat) (s : Machine) (hr : n - tot ≤ r) :
    (idewriteLoop minor src n r tot off s).disk =
      synced s.disk (stored s.cache minor off (n - tot) fun j => src (tot + j)) minor off (n - tot) := by
  induction r generalizing tot off s with
  | zero =>
    rw [Nat.le_zero.mp hr, synced_zero]
    rfl
  | succ r ih =>
    rw [idewriteLoop]
    split
    · next hlt =>
        have hB : BSIZE = 1024 := rfl
        have hmod : off % BSIZE < BSIZE := Nat.mod_lt _ (by decide)
        generalize hm : min (n - tot) (BSIZE - off % BSIZE) = m
        rw [ih _ _ _ (by omega)]
        have hcache : (s.put minor off m fun j => src (tot + j)).cache =
            stored s.cache minor off m fun j => src (tot + j) := rfl
        have hdisk : (s.put minor off m fun j => src (tot + j)).disk =
            synced s.disk (stored s.cache minor off m fun j => src (tot + j)) minor off m := by
          funext u a
          simp only [synced, touched_block (show 0 < m by omega) (show off % BSIZE + m ≤ BSIZE by omega)]
          rfl
        rw [hcache, hdisk, synced_synced, stored_stored]
        congr 2 <;> omega
    · next hge =>
        have hdone : n - tot = 0 := by omega
        rw [hdone, synced_zero]

/-- `filewrite` to a disk that gets through stores its bytes at the offset, and sends their blocks. -/
theorem filewriteLoop_disk (k i : Nat) (f : Open) (s : Machine) (hk : n - i ≤ k) (hi : i ≤ n)
    (hdisk : f.ip.major = DISK) (hall : (filewriteLoop src n k i f s).1 = n) :
    (filewriteLoop src n k i f s).2.2.disk = synced s.disk
      (stored s.cache f.ip.minor f.off.toNat (n - i) fun j => src (i + j)) f.ip.minor f.off.toNat (n - i) := by
  induction k generalizing i f s with
  | zero =>
    rw [Nat.le_zero.mp hk, synced_zero]
    rfl
  | succ k ih =>
    have hmax : filewriteMax = 6656 := rfl
    rw [filewriteLoop] at hall ⊢
    split at hall
    · next hlt =>
        rw [if_pos hlt]
        dsimp only at hall ⊢
        have hne : f.ip.major ≠ CONSOLE := by rw [hdisk]; decide
        generalize hn1 : min (n - i) filewriteMax = n1 at hall ⊢
        by_cases hfit : f.off.toNat + n1 ≤ FSSIZE * BSIZE
        · rw [writei, if_neg hne, if_pos hdisk, idewrite_of_fits (by omega) hfit] at hall ⊢
          dsimp only at hall ⊢
          rw [if_neg (by omega), if_pos (by omega), Int.toNat_natCast] at hall ⊢
          have hoff : (f.off + UInt32.ofNat n1).toNat = f.off.toNat + n1 := by
            have hsize : FSSIZE * BSIZE = 10240000 := rfl
            rw [UInt32.toNat_add, UInt32.toNat_ofNat']
            omega
          have hrest := ih (i + n1) { f with off := f.off + UInt32.ofNat n1 } _ (by omega) (by omega) hdisk hall
          rw [hrest, idewriteLoop_cache _ _ _ _ _ (by omega), idewriteLoop_disk _ _ _ _ _ (by omega)]
          dsimp only
          rw [hoff, Nat.sub_zero]
          simp only [zero_add]
          rw [synced_synced, stored_stored]
          congr 2 <;> omega
        · rw [writei, if_neg hne, if_pos hdisk, idewrite_of_not_fits (by omega) hfit] at hall
          simp at hall
          omega
    · next hge =>
        have hdone : n - i = 0 := by omega
        rw [if_neg hge, hdone, synced_zero]

end RawWrite

/-! ## The whole call -/

/-- `filewrite` of the `n` bytes of `src` through `g` leaves exactly these bytes of its disk changed. -/
def ChangesThere (g : Open) (src : Nat → UInt8) (n : Nat) (s : Machine) : Prop :=
  ∀ u a, (filewrite g src n s).2.2.disk u a =
    if u = unit g.ip.minor ∧ g.off.toNat ≤ a ∧ a < g.off.toNat + n then src (a - g.off.toNat) else s.disk u a

/-- The cache has what the disk has in the blocks of the `n` bytes from the offset on, these bytes apart. -/
def Agrees (g : Open) (n : Nat) (s : Machine) : Prop :=
  ∀ a, Touched g.off.toNat n a → ¬ (g.off.toNat ≤ a ∧ a < g.off.toNat + n) →
    s.cache g.ip.minor a = s.disk (unit g.ip.minor) a

/-- `sys_lseek` returns and changes at most the offset of the descriptor: the machine is as before. -/
def SeeksOnly (page : Option (Nat → UInt8)) (f : Open) (offset base uninit : Int32) (s : Machine) : Prop :=
  ∃ r g, sysLseek page f offset base uninit s = .ok (r, g, s) ∧ (∃ o, g = { f with off := o }) ∧
    (0 ≤ r → (g.off.toNat : Int) = r)

/-- The zeros have no effect: there are none, or there is a page for them and the descriptor is not writable,
    the device is neither a terminal nor a disk, or the disk refuses even the shortest round. -/
def NoZeros (page : Option (Nat → UInt8)) (f : Open) (newoff : Int) : Prop :=
  newoff ≤ f.ip.size.toNat ∨
    (page.isSome ∧ (f.writable = true → ¬ f.ip.acts f.off (lastRound (newoff - f.ip.size.toNat))))

/-- **A write to a raw disk that gets through changes exactly its own bytes if and only if** the cache agrees with
    the disk on the rest of their blocks. -/
theorem changesThere_iff {g : Open} {src : Nat → UInt8} {n : Nat} {s : Machine} (h : g.ip.major = DISK)
    (hr : (filewrite g src n s).1 = n) : ChangesThere g src n s ↔ Agrees g n s := by
  have hdisk : (filewrite g src n s).2.2.disk =
      synced s.disk (stored s.cache g.ip.minor g.off.toNat n src) g.ip.minor g.off.toNat n := by
    rw [filewrite] at hr ⊢
    split at hr
    · have hneg : (EBADF : Int) < 0 := by decide
      omega
    · next hw =>
        rw [if_neg hw]
        dsimp only at hr ⊢
        rw [Int.toNat_natCast] at hr ⊢
        have hall : (filewriteLoop src n n 0 g s).1 = n := by
          by_contra hne
          have hneg : (EFBIG : Int) < 0 := by decide
          omega
        rw [filewriteLoop_disk n 0 g s (by omega) (by omega) h hall, Nat.sub_zero]
        simp only [zero_add]
  constructor
  · intro hthere a ha hout
    have hat := hthere (unit g.ip.minor) a
    rw [hdisk, synced, if_pos ⟨rfl, ha⟩, stored, if_neg fun hin => hout hin.2, if_neg fun hin => hout hin.2] at hat
    exact hat
  · intro hagree u a
    rw [hdisk, synced]
    by_cases hin : g.off.toNat ≤ a ∧ a < g.off.toNat + n
    · have htouch : Touched g.off.toNat n a := ⟨a, hin.1, hin.2, rfl⟩
      by_cases hu : u = unit g.ip.minor
      · rw [if_pos ⟨hu, htouch⟩, if_pos ⟨hu, hin⟩, stored, if_pos ⟨rfl, hin⟩]
      · rw [if_neg fun hc => hu hc.1, if_neg fun hc => hu hc.1]
    · have hout : ¬ (u = unit g.ip.minor ∧ g.off.toNat ≤ a ∧ a < g.off.toNat + n) := fun hc => hin hc.2
      rw [if_neg hout]
      split_ifs with ht
      · rw [stored, if_neg fun hc => hin hc.2, hagree a ht.2 hin, ht.1]
      · rfl

/-- An offset that is not negative is kept exactly. -/
theorem toNat_toUInt32 {x : Int32} (h : 0 ≤ x.toInt) : (x.toUInt32.toNat : Int) = x.toInt := by
  have hbv : x.toUInt32.toBitVec = x.toBitVec := rfl
  rw [← UInt32.toNat_toBitVec, hbv, ← Int32.toInt_toBitVec, BitVec.toInt_eq_toNat_cond]
  rw [← Int32.toInt_toBitVec, BitVec.toInt_eq_toNat_cond] at h
  split
  · rfl
  · next hbig =>
      have hlt := x.toBitVec.isLt
      omega

/-- **On a device `sys_lseek` changes at most the offset if and only if the target is negative, it is within
    the size in the inode, or the zeros up to it have no effect.** A write through the descriptor that follows on a raw
    disk, and gets through, then changes exactly its own bytes of the disk if and only if the cache agrees with the disk
    on the rest of their blocks. -/
theorem lseek_device_iff (page : Option (Nat → UInt8)) (f : Open) (offset base uninit : Int32) (s : Machine) :
    (SeeksOnly page f offset base uninit s ↔
      (lseekTarget f offset base uninit).toInt < 0 ∨ NoZeros page f (lseekTarget f offset base uninit).toInt) ∧
    ∀ r g src (n : Nat), sysLseek page f offset base uninit s = .ok (r, g, s) → g.ip.major = DISK →
      (filewrite g src n s).1 = n → (ChangesThere g src n s ↔ Agrees g n s) := by
  refine ⟨?_, fun r g src n _ hdisk hall => changesThere_iff hdisk hall⟩
  simp only [SeeksOnly, sysLseek]
  generalize lseekTarget f offset base uninit = newoff
  split
  · next hneg =>
    have herr : ¬ (0 : Int) ≤ EINVAL := by decide
    exact iff_of_true ⟨EINVAL, f, rfl, ⟨f.off, rfl⟩, fun h => absurd h herr⟩ (.inl hneg)
  · next hneg =>
    have hoff := toNat_toUInt32 (Int.not_lt.mp hneg)
    split_ifs with hpast
    · constructor
      · rintro ⟨r, g, heq, -, -⟩
        refine .inr (.inr ?_)
        cases page with
        | none => cases heq
        | some after =>
          refine ⟨rfl, fun hw hacts => ?_⟩
          have hmore := lseekFill_acts (fun j => if j < PGSIZE then 0 else after j)
            ((newoff.toInt - f.ip.size.toNat).toNat / PGSIZE + 1) _ f s (Nat.lt_succ_self _)
            (by omega) hw hacts
          simp only [Except.ok.injEq, Prod.mk.injEq] at heq
          rw [heq.2.2] at hmore
          exact absurd hmore (lt_irrefl _)
      · rintro (h | h | ⟨hpage, hquiet⟩)
        · exact absurd h hneg
        · omega
        · obtain ⟨after, rfl⟩ := Option.isSome_iff_exists.mp hpage
          obtain ⟨hs, o, hf⟩ := lseekFill_quiet (fun j => if j < PGSIZE then 0 else after j)
            ((newoff.toInt - f.ip.size.toNat).toNat / PGSIZE + 1) _ f s hquiet
          refine ⟨newoff.toInt, { f with off := newoff.toUInt32 }, ?_, ⟨_, rfl⟩, fun _ => hoff⟩
          simp only [hs, hf]
    · exact iff_of_true ⟨_, _, rfl, ⟨_, rfl⟩, fun _ => hoff⟩ (.inr (.inl (Int.not_lt.mp hpast)))

/-- A descriptor open for writing on disk 1, at offset 0. -/
def rawDisk : Open := ⟨true, 0, ⟨DISK, 1, 0⟩⟩

/-- A machine with every byte of both disks 255. -/
def full : Machine := ⟨fun _ _ => 255, fun _ _ => 255, [], []⟩

/-- A seek back to the start of a raw disk, and two bytes written there. -/
theorem lseek_device_rewound : ∃ g, sysLseek none { rawDisk with off := 5 } 0 SEEK_SET 0 full = .ok (0, g, full) ∧
    SeeksOnly none { rawDisk with off := 5 } 0 SEEK_SET 0 full ∧ ChangesThere g (fun _ => 1) 2 full := by
  have hthm := lseek_device_iff none { rawDisk with off := 5 } 0 SEEK_SET 0 full
  have hrun : sysLseek none { rawDisk with off := 5 } 0 SEEK_SET 0 full = .ok (0, rawDisk, full) := rfl
  refine ⟨rawDisk, hrun, hthm.1.mpr (.inr (.inl (by decide))), ?_⟩
  exact (hthm.2 0 rawDisk (fun _ => 1) 2 hrun rfl rfl).mpr fun _ _ _ => rfl

/-- A seek to byte 1 of a raw disk, whose inode has size 0, writes a zero over byte 0 of the disk. -/
theorem lseek_raw_disk_overwrites :
    (∃ g s, sysLseek (some fun _ => 0) rawDisk 1 SEEK_SET 0 full = .ok (1, g, s) ∧ s.disk true 0 = 0) ∧
      ¬ SeeksOnly (some fun _ => 0) rawDisk 1 SEEK_SET 0 full := by
  have hok : ∃ g s, sysLseek (some fun _ => 0) rawDisk 1 SEEK_SET 0 full = .ok (1, g, s) ∧ s.disk true 0 = 0 :=
    ⟨_, _, rfl, rfl⟩
  refine ⟨hok, ?_⟩
  rintro ⟨r, g, heq, -⟩
  obtain ⟨g', s, hrun, hzero⟩ := hok
  rw [hrun] at heq
  simp only [Except.ok.injEq, Prod.mk.injEq] at heq
  rw [heq.2.2] at hzero
  exact absurd hzero (by decide)

end Xv6Device
