import Xv6.LogicalDiskProofs

/-!
# `fs.c` — blocks, inodes, directories and path names

The functions of `kern/fs.c`, in its order and under its names, as programs over the
kernel's commands. A pointer to an in-memory inode is its index in `icache.inode`; a C loop
is a recursion with the loop variable as an argument and, where the end test reads memory,
a bound on the number of rounds that the callers choose large enough.

Two things are read off the source with care. `bfree` reads the superblock again before it
looks at the bitmap. `iput` frees the inode only when the entry is valid, holds the last
reference and shows no links.
-/

namespace Xv6Fs

open CmdProg ByteBuf Xv6Disk Xv6Kernel Function List

/-! ## Scanning a table -/

/-- The first index from `i` on, `rounds` at most, that satisfies `p`. -/
def firstFrom {n : Nat} (p : Fin n → Bool) : (rounds i : Nat) → Option (Fin n)
  | 0, _ => none
  | r + 1, i =>
    if h : i < n then
      if p ⟨i, h⟩ then some ⟨i, h⟩ else firstFrom p r (i + 1)
    else none

/-- `for(x = table; x < table + n; x++) if(p(x)) return x;` -/
def firstIdx {n : Nat} (p : Fin n → Bool) : Option (Fin n) := firstFrom p n 0

theorem firstFrom_some {n : Nat} {p : Fin n → Bool} : ∀ {r i : Nat} {k : Fin n}, firstFrom p r i = some k →
      p k = true ∧ i ≤ k.val ∧ ∀ j : Fin n, i ≤ j.val → j < k → p j = false := by
  intro r
  induction r with
  | zero => intro i k h; cases h
  | succ r ih =>
    intro i k h
    simp only [firstFrom] at h
    split at h
    · next hi =>
      cases hp : p ⟨i, hi⟩ with
      | true =>
        rw [hp, if_pos rfl] at h
        cases h
        refine ⟨hp, le_refl _, ?_⟩
        intro j hj hlt
        exact absurd hlt (not_lt.mpr hj)
      | false =>
        rw [hp] at h
        obtain ⟨h1, h2, h3⟩ := ih h
        refine ⟨h1, by omega, ?_⟩
        intro j hj hlt
        by_cases hji : j.val = i
        · have : j = ⟨i, hi⟩ := Fin.ext hji
          rw [this]; exact hp
        · exact h3 j (by omega) hlt
    · cases h

theorem firstFrom_none {n : Nat} {p : Fin n → Bool} : ∀ {r i : Nat}, firstFrom p r i = none →
      ∀ j : Fin n, i ≤ j.val → j.val < i + r → p j = false := by
  intro r
  induction r with
  | zero => intro i _ j h1 h2; omega
  | succ r ih =>
    intro i h j h1 h2
    simp only [firstFrom] at h
    have hi : i < n := lt_of_le_of_lt h1 j.isLt
    rw [dif_pos hi] at h
    cases hp : p ⟨i, hi⟩ with
    | true => rw [hp, if_pos rfl] at h; cases h
    | false =>
      rw [hp] at h
      by_cases hji : j.val = i
      · have : j = ⟨i, hi⟩ := Fin.ext hji
        rw [this]; exact hp
      · exact ih h j (by omega) (by omega)

/-- A found index satisfies the test. -/
theorem firstIdx_some {n : Nat} {p : Fin n → Bool} {k : Fin n} (h : firstIdx p = some k) :
    p k = true := (firstFrom_some h).1

/-- No index found: none satisfies the test. -/
theorem firstIdx_none {n : Nat} {p : Fin n → Bool} (h : firstIdx p = none) (j : Fin n) : p j = false :=
  firstFrom_none h j (Nat.zero_le _) (by have := j.isLt; omega)

/-! ## In-memory inodes -/

def getInode (ip : Fin NINODE) : K Inode := do
  let m ← getMem
  pure (m.icache ip)

def modInode (ip : Fin NINODE) (f : Inode → Inode) : K Unit :=
  modMem fun m => { m with icache := update m.icache ip (f (m.icache ip)) }

/-- Change the fields of an in-memory inode that are copied from the disk. -/
def modDin (ip : Fin NINODE) (f : Dinode → Dinode) : K Unit :=
  modInode ip fun i => { i with din := f i.din }

def getSb : K Superblock := do
  let m ← getMem
  pure m.sb

/-- `addrs[k]`, for `k` up to `NDIRECT`. -/
def addr (d : Dinode) (k : Nat) : UInt32 := d.addrs (Fin.ofNat (NDIRECT + 1) k)

def setAddr (d : Dinode) (k : Nat) (a : UInt32) : Dinode :=
  { d with addrs := update d.addrs (Fin.ofNat (NDIRECT + 1) k) a }

/-! ## Blocks -/

/-- Read the super block. -/
def readsb : K Superblock := do
  let d ← bread 1
  brelse 1
  pure (getSuperblock d)

/-- Zero a block. -/
def bzero (bno : Nat) : K Unit := do
  let _ ← bread bno
  bstore bno zeros
  logWrite bno
  brelse bno

/-- The inner loop of `balloc`: the first clear bit of the bitmap block `d`, whose bit 0
    stands for block `b`. -/
def scanBits (sb : Superblock) (d : Block) (b : Nat) : (rounds bi : Nat) → Option Nat
  | 0, _ => none
  | r + 1, bi =>
    if b + bi < sb.size then
      if bitAt d bi then scanBits sb d b r (bi + 1) else some bi
    else none

def ballocLoop (sb : Superblock) : (rounds b : Nat) → K Nat
  | 0, _ => kpanic "balloc: out of blocks"
  | r + 1, b =>
    if b < sb.size then do
      let d ← bread (BBLOCK b sb)
      match scanBits sb d b BPB 0 with
      | some bi => do
        bstore (BBLOCK b sb) (setBit d bi)
        logWrite (BBLOCK b sb)
        brelse (BBLOCK b sb)
        bzero (b + bi)
        pure (b + bi)
      | none => do
        brelse (BBLOCK b sb)
        ballocLoop sb r (b + BPB)
    else kpanic "balloc: out of blocks"

/-- Allocate a zeroed disk block. -/
def balloc : K UInt32 := do
  let sb ← getSb
  let b ← ballocLoop sb (sb.size / BPB + 1) 0
  pure (UInt32.ofNat b)

/-- Free a disk block. -/
def bfree (b : UInt32) : K Unit := do
  let sb ← readsb
  modMem fun m => { m with sb := sb }
  let d ← bread (BBLOCK b.toNat sb)
  if bitAt d (b.toNat % BPB) then do
    bstore (BBLOCK b.toNat sb) (clearBit d (b.toNat % BPB))
    logWrite (BBLOCK b.toNat sb)
    brelse (BBLOCK b.toNat sb)
  else kpanic "freeing free block"

/-! ## Inodes -/

/-- Find the inode with number `inum` on device `dev` and return the in-memory copy. Does
    not lock the inode and does not read it from disk. -/
def iget (dev inum : Nat) : K (Fin NINODE) := do
  let m ← getMem
  -- Is the inode already cached?
  match firstIdx (fun k : Fin NINODE => decide (0 < (m.icache k).ref) &&
      decide ((m.icache k).dev = dev) && decide ((m.icache k).inum = inum)) with
  | some k => do
    modInode k fun i => { i with ref := i.ref + 1 }
    pure k
  | none =>
    -- Recycle an inode cache entry.
    match firstIdx (fun k : Fin NINODE => decide ((m.icache k).ref = 0)) with
    | some k => do
      modInode k fun i =>
        { i with dev := dev, inum := inum, ref := 1, busy := false, valid := false }
      pure k
    | none => kpanic "iget: no inodes"

def iallocLoop (dev : Nat) (sb : Superblock) (type : Int16) : (rounds inum : Nat) → K (Fin NINODE)
  | 0, _ => kpanic "ialloc: no inodes"
  | r + 1, inum =>
    if inum < sb.ninodes then do
      let d ← bread (IBLOCK inum sb)
      if (getDinode d (inum % IPB)).type = 0 then do  -- a free inode
        let mtime ← input
        bstore (IBLOCK inum sb)
          (putDinode d (inum % IPB) { Dinode.zero with type := type, mtime := mtime })
        logWrite (IBLOCK inum sb)   -- mark it allocated on the disk
        brelse (IBLOCK inum sb)
        iget dev inum
      else do
        brelse (IBLOCK inum sb)
        iallocLoop dev sb type r (inum + 1)
    else kpanic "ialloc: no inodes"

/-- Allocate a new inode with the given type on device `dev`. A free inode has a type of
    zero. -/
def ialloc (dev : Nat) (type : Int16) : K (Fin NINODE) := do
  let sb ← getSb
  iallocLoop dev sb type sb.ninodes 1

/-- Copy a modified in-memory inode to disk. -/
def iupdate (ip : Fin NINODE) : K Unit := do
  let i ← getInode ip
  let sb ← getSb
  let d ← bread (IBLOCK i.inum sb)
  bstore (IBLOCK i.inum sb) (putDinode d (i.inum % IPB) i.din)
  logWrite (IBLOCK i.inum sb)
  brelse (IBLOCK i.inum sb)

/-- Increment reference count for `ip`. -/
def idup (ip : Fin NINODE) : K (Fin NINODE) := do
  modInode ip fun i => { i with ref := i.ref + 1 }
  pure ip

/-- The second half of `ilock`: read the inode from disk if necessary. -/
def ilockRead (ip : Fin NINODE) : K Unit := do
  let i ← getInode ip
  if i.valid then pure ()
  else do
    let sb ← getSb
    let d ← bread (IBLOCK i.inum sb)
    modDin ip fun _ => getDinode d (i.inum % IPB)
    brelse (IBLOCK i.inum sb)
    modInode ip fun i => { i with valid := true }
    if (getDinode d (i.inum % IPB)).type = 0 then kpanic "ilock: no type" else pure ()

/-- Lock the given inode. Reads the inode from disk if necessary. -/
def ilock (ip : Fin NINODE) : K Unit := do
  let i ← getInode ip
  if i.ref < 1 then kpanic "ilock"
  else if i.busy then halt .blocked
  else do
    modInode ip fun i => { i with busy := true }
    ilockRead ip

/-- Unlock the given inode. -/
def iunlock (ip : Fin NINODE) : K Unit := do
  let i ← getInode ip
  if i.busy = false ∨ i.ref < 1 then kpanic "iunlock"
  else modInode ip fun i => { i with busy := false }

/-! ## Inode content -/

/-- The indirect block of an inode, allocating if necessary. -/
def bmapIndirect (ip : Fin NINODE) : K UInt32 := do
  let i ← getInode ip
  if addr i.din NDIRECT = 0 then do
    let a ← balloc
    modDin ip fun d => setAddr d NDIRECT a
    pure a
  else pure (addr i.din NDIRECT)

/-- Entry `j` of the indirect block `ib`, allocating if necessary. -/
def bmapEntry (ib : UInt32) (j : Nat) : K UInt32 := do
  let d ← bread ib.toNat
  if getAddr d j = 0 then do
    let a ← balloc
    bstore ib.toNat (putAddr d j a)
    logWrite ib.toNat
    brelse ib.toNat
    pure a
  else do
    brelse ib.toNat
    pure (getAddr d j)

/-- Return the disk block address of the `bn`th block in inode `ip`. If there is no such
    block, `bmap` allocates one. -/
def bmap (ip : Fin NINODE) (bn : Nat) : K UInt32 := do
  let i ← getInode ip
  if bn < NDIRECT then
    if addr i.din bn = 0 then do
      let a ← balloc
      modDin ip fun d => setAddr d bn a
      pure a
    else pure (addr i.din bn)
  else if bn - NDIRECT < NINDIRECT then do
    let ib ← bmapIndirect ip
    bmapEntry ib (bn - NDIRECT)
  else kpanic "bmap: out of range"

def itruncDirect (ip : Fin NINODE) : (rounds k : Nat) → K Unit
  | 0, _ => pure ()
  | r + 1, k => do
    let i ← getInode ip
    if addr i.din k = 0 then itruncDirect ip r (k + 1)
    else do
      bfree (addr i.din k)
      modDin ip fun d => setAddr d k 0
      itruncDirect ip r (k + 1)

def itruncEntries (d : Block) : (rounds j : Nat) → K Unit
  | 0, _ => pure ()
  | r + 1, j =>
    if getAddr d j = 0 then itruncEntries d r (j + 1)
    else do
      bfree (getAddr d j)
      itruncEntries d r (j + 1)

def itruncIndirect (ip : Fin NINODE) : K Unit := do
  let i ← getInode ip
  if addr i.din NDIRECT = 0 then pure ()
  else do
    let d ← bread (addr i.din NDIRECT).toNat
    itruncEntries d NINDIRECT 0
    brelse (addr i.din NDIRECT).toNat
    bfree (addr i.din NDIRECT)
    modDin ip fun d => setAddr d NDIRECT 0

/-- Truncate inode (discard contents). -/
def itrunc (ip : Fin NINODE) : K Unit := do
  itruncDirect ip NDIRECT 0
  itruncIndirect ip
  modDin ip fun d => { d with size := 0 }
  iupdate ip

/-- The freeing part of `iput`: the inode has no links and no other references. -/
def iputFree (ip : Fin NINODE) : K Unit := do
  let i ← getInode ip
  if i.busy then kpanic "iput busy"
  else do
    modInode ip fun i => { i with busy := true }
    itrunc ip
    modDin ip fun d => { d with type := 0 }
    iupdate ip
    modInode ip fun i => { i with busy := false, valid := false }

def iputMaybeFree (ip : Fin NINODE) : K Unit := do
  let i ← getInode ip
  if i.ref = 1 ∧ i.valid = true ∧ i.din.nlink = 0 then iputFree ip else pure ()

/-- Drop a reference to an in-memory inode. -/
def iput (ip : Fin NINODE) : K Unit := do
  point .iput
  iputMaybeFree ip
  modInode ip fun i => { i with ref := i.ref - 1 }

/-- Common idiom: unlock, then put. -/
def iunlockput (ip : Fin NINODE) : K Unit := do
  iunlock ip
  iput ip

-- The device switch: `devsw[major].read` and `devsw[major].write`. The console gives up the
-- lock of its inode while it waits for the terminal and takes it again; with no other process
-- running, that leaves no trace.

def CONSOLE : Int16 := 1
def DISK : Int16 := 2
def DEVNULL : Int16 := 3

/-- Bytes that a device delivers. -/
def inputBytes : Nat → K (List UInt8)
  | 0 => pure []
  | n + 1 => do
    let v ← input
    let rest ← inputBytes n
    pure (v.toUInt8 :: rest)

def consoleread (i : Inode) (n : UInt32) : K (Int × List UInt8) :=
  if i.din.minor < 0 ∨ 1 < i.din.minor then pure (0, [])
  else do
    -- what the terminal delivers, at most `n` bytes, or -1 when the reader is killed
    let v ← input
    let bytes ← inputBytes (v.toNat % (n.toNat + 2) - 1)
    pure ((v.toNat % (n.toNat + 2) : Nat) - 1, bytes)

def nullread (i : Inode) (n : UInt32) : K (Int × List UInt8) :=
  if i.din.minor = 0 then pure (0, []) else pure (n.toNat, replicate n.toNat 0)

/-- The size of a disk in bytes. -/
def diskSize : UInt32 := UInt32.ofNat (FSSIZE * BSIZE)

def idereadLoop (n : Nat) : (rounds tot off : Nat) → K (List UInt8)
  | 0, _, _ => pure []
  | r + 1, tot, off =>
    if tot < n then do
      let d ← bread (off / BSIZE)
      let m := min (n - tot) (BSIZE - off % BSIZE)
      brelse (off / BSIZE)
      let rest ← idereadLoop n r (tot + m) (off + m)
      pure ((range m).map (fun j => byteAt d (off % BSIZE + j)) ++ rest)
    else pure []

/-- Read raw disk blocks. A node with another minor number is another disk. -/
def ideread (i : Inode) (off n : UInt32) : K (Int × List UInt8) :=
  if diskSize < off then pure (-1, [])
  else do
    let n := if diskSize < off + n then diskSize - off else n
    let bytes ← (if i.din.minor.toInt = ROOTDEV then idereadLoop n.toNat n.toNat 0 off.toNat
      else inputBytes n.toNat : K (List UInt8))
    pure (n.toNat, bytes)

def idewriteLoop (src : Nat → UInt8) (n : Nat) : (rounds tot off : Nat) → K Unit
  | 0, _, _ => pure ()
  | r + 1, tot, off =>
    if tot < n then do
      let d ← bread (off / BSIZE)
      let m := min (n - tot) (BSIZE - off % BSIZE)
      bstore (off / BSIZE) (blit d (off % BSIZE) m (fun j => src (tot + j)))
      bwrite (off / BSIZE)   -- Force block to be written to disk
      brelse (off / BSIZE)
      idewriteLoop src n r (tot + m) (off + m)
    else pure ()

/-- Write raw disk blocks. -/
def idewrite (i : Inode) (src : Nat → UInt8) (off n : UInt32) : K Int :=
  if diskSize < off then pure (-1)
  else if diskSize < off + n then pure (-1)
  else do
    (if i.din.minor.toInt = ROOTDEV then idewriteLoop src n.toNat n.toNat 0 off.toNat else pure ())
    pure n.toNat

def devRead (i : Inode) (off n : UInt32) : K (Int × List UInt8) :=
  if i.din.major = CONSOLE then consoleread i n
  else if i.din.major = DISK then ideread i off n
  else if i.din.major = DEVNULL then nullread i n
  else pure (-1, [])

def devWrite (i : Inode) (src : Nat → UInt8) (off n : UInt32) : K Int :=
  if i.din.major = CONSOLE then pure n.toNat
  else if i.din.major = DISK then idewrite i src off n
  else if i.din.major = DEVNULL then pure n.toNat
  else pure (-1)

def readiLoop (ip : Fin NINODE) (n : Nat) : (rounds tot off : Nat) → K (List UInt8)
  | 0, _, _ => pure []
  | r + 1, tot, off =>
    if tot < n then do
      let a ← bmap ip (off / BSIZE)
      let d ← bread a.toNat
      let m := min (n - tot) (BSIZE - off % BSIZE)
      brelse a.toNat
      let rest ← readiLoop ip n r (tot + m) (off + m)
      pure ((range m).map (fun j => byteAt d (off % BSIZE + j)) ++ rest)
    else pure []

/-- Read data from inode: the value returned and the bytes copied out. -/
def readi (ip : Fin NINODE) (off n : UInt32) : K (Int × List UInt8) := do
  let i ← getInode ip
  if i.din.type = T_DEV then devRead i off n
  else if i.din.size < off ∨ off + n < off then pure (-1, [])
  else do
    let n := if i.din.size < off + n then i.din.size - off else n
    let bytes ← readiLoop ip n.toNat n.toNat 0 off.toNat
    pure (n.toNat, bytes)

def writeiLoop (ip : Fin NINODE) (src : Nat → UInt8) (n : Nat) : (rounds tot off : Nat) → K Unit
  | 0, _, _ => pure ()
  | r + 1, tot, off =>
    if tot < n then do
      let a ← bmap ip (off / BSIZE)
      let d ← bread a.toNat
      let m := min (n - tot) (BSIZE - off % BSIZE)
      bstore a.toNat (blit d (off % BSIZE) m (fun j => src (tot + j)))
      logWrite a.toNat
      brelse a.toNat
      writeiLoop ip src n r (tot + m) (off + m)
    else pure ()

/-- The end of `writei`: the new size and modification time go to the disk. -/
def writeiFinish (ip : Fin NINODE) (off n : UInt32) : K Int := do
  modDin ip fun d => if 0 < n ∧ d.size < off + n then { d with size := off + n } else d
  let mtime ← input
  modDin ip fun d => { d with mtime := mtime }
  iupdate ip
  pure n.toNat

/-- Write data to inode. -/
def writei (ip : Fin NINODE) (src : Nat → UInt8) (off n : UInt32) : K Int := do
  let i ← getInode ip
  if i.din.type = T_DEV then devWrite i src off n
  else if i.din.size < off ∨ off + n < off then pure (-1)
  else if MAXFILE * BSIZE < (off + n).toNat then pure (-1)
  else do
    writeiLoop ip src n.toNat n.toNat 0 off.toNat
    writeiFinish ip off n

/-! ## Directories -/

/-- `strncmp` of `kern/string.c`, on strings without their terminating NUL. -/
def strncmp : (n : Nat) → (p q : List UInt8) → Int
  | 0, _, _ => 0
  | n + 1, p, q =>
    if p.headD 0 ≠ 0 ∧ p.headD 0 = q.headD 0 then strncmp n p.tail q.tail
    else (p.headD 0).toNat - (q.headD 0).toNat

def namecmp (s t : List UInt8) : Int := strncmp DIRSIZ s t

/-- `strncpy(de.name, name, DIRSIZ)`: the string up to its NUL, then zeros. -/
def strncpyName (t : List UInt8) : Fin DIRSIZ → UInt8 :=
  fun k => (t.takeWhile (· ≠ 0)).getD k.val 0

/-- The directory entry in sixteen bytes read from a directory. -/
def direntOf (bytes : List UInt8) : Dirent := getDirent (fun j => bytes.getD j 0)

def dirlookupLoop (dp : Fin NINODE) (name : List UInt8) :
    (rounds off : Nat) → K (Option (Fin NINODE × Nat))
  | 0, _ => pure none
  | r + 1, off => do
    let i ← getInode dp
    if off < i.din.size.toNat then do
      let x ← readi dp (UInt32.ofNat off) 16
      if x.1 ≠ 16 then kpanic "dirlink read"
      else if (direntOf x.2).inum = 0 then dirlookupLoop dp name r (off + 16)
      else if namecmp name (ofFn (direntOf x.2).name) = 0 then do
        -- entry matches path element
        let k ← iget i.dev (direntOf x.2).inum.toNat
        pure (some (k, off))
      else dirlookupLoop dp name r (off + 16)
    else pure none

/-- Look for a directory entry in a directory: the inode and the byte offset of the
    entry. -/
def dirlookup (dp : Fin NINODE) (name : List UInt8) : K (Option (Fin NINODE × Nat)) := do
  let i ← getInode dp
  if i.din.type ≠ T_DIR then kpanic "dirlookup not DIR"
  else dirlookupLoop dp name (i.din.size.toNat / 16 + 1) 0

/-- Look for an empty dirent: its offset, or the size of the directory. -/
def dirlinkSlot (dp : Fin NINODE) : (rounds off : Nat) → K Nat
  | 0, off => pure off
  | r + 1, off => do
    let i ← getInode dp
    if off < i.din.size.toNat then do
      let x ← readi dp (UInt32.ofNat off) 16
      if x.1 ≠ 16 then kpanic "dirlink read"
      else if (direntOf x.2).inum = 0 then pure off
      else dirlinkSlot dp r (off + 16)
    else pure off

/-- The storing half of `dirlink`. -/
def dirlinkStore (dp : Fin NINODE) (name : List UInt8) (inum : Nat) : K Int := do
  let i ← getInode dp
  let off ← dirlinkSlot dp (i.din.size.toNat / 16 + 1) 0
  let r ← writei dp (Dirent.byte ⟨UInt16.ofNat inum, strncpyName name⟩) (UInt32.ofNat off) 16
  if r ≠ 16 then kpanic "dirlink" else pure 0

/-- Write a new directory entry `(name, inum)` into the directory `dp`. -/
def dirlink (dp : Fin NINODE) (name : List UInt8) (inum : Nat) : K Int := do
  -- Check that name is not present.
  match ← dirlookup dp name with
  | some x => do
    iput x.1
    pure (-1)
  | none => dirlinkStore dp name inum

/-! ## Paths -/

def slash : UInt8 := 47

/-- Copy the next path element from `path` into `name` and return the rest: `none` if
    there is no name to remove. -/
def skipelem (path : List UInt8) : Option (List UInt8 × List UInt8) :=
  match path.dropWhile (· = slash) with
  | [] => none
  | c :: cs =>
    some (((c :: cs).takeWhile (· ≠ slash)).take DIRSIZ, ((c :: cs).dropWhile (· ≠ slash)).dropWhile (· = slash))

def namexLoop (nameiparent : Bool) :
    (rounds : Nat) → Fin NINODE → (path name : List UInt8) → K (Option (Fin NINODE × List UInt8))
  | 0, _, _, _ => pure none
  | r + 1, ip, path, name =>
    match skipelem path with
    | none =>
      if nameiparent then do
        iput ip
        pure none
      else pure (some (ip, name))
    | some (name', rest) => do
      ilock ip
      let i ← getInode ip
      if i.din.type ≠ T_DIR then do
        iunlockput ip
        pure none
      else if nameiparent = true ∧ rest = [] then do
        -- Stop one level early.
        iunlock ip
        pure (some (ip, name'))
      else do
        match ← dirlookup ip name' with
        | none => do
          iunlockput ip
          pure none
        | some next => do
          iunlockput ip
          namexLoop nameiparent r next.1 rest name'

/-- Where a path walk starts: the root for an absolute path, else the current directory of
    process `p`. -/
def namexStart (p : Fin NPROC) (path : List UInt8) : K (Fin NINODE) :=
  if path.head? = some slash then iget ROOTDEV ROOTINO
  else do
    let m ← getMem
    match (m.ptable p).cwd with
    | some ip => idup ip
    | none => kpanic "trap"   -- a process without a current directory

/-- Look up and return the inode for a path name; with `nameiparent`, the inode of the
    parent and the final path element. -/
def namex (p : Fin NPROC) (path : List UInt8) (nameiparent : Bool) :
    K (Option (Fin NINODE × List UInt8)) := do
  let ip ← namexStart p path
  namexLoop nameiparent (path.length + 1) ip path []

def namei (p : Fin NPROC) (path : List UInt8) : K (Option (Fin NINODE)) := do
  let x ← namex p path false
  pure (x.map Prod.fst)

def nameiparent (p : Fin NPROC) (path : List UInt8) : K (Option (Fin NINODE × List UInt8)) :=
  namex p path true

end Xv6Fs
