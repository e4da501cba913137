import Xv6.ByteBufferProofs

/-!
# The on-disk format — superblock, dinodes, directory entries, bitmap

`include/xv6/fs.h` and `include/xv6/param.h`: the constants, the four structures that live
inside disk blocks, and the places where they live. The kernel reaches a structure inside a
block by casting the buffer pointer; here the cast is a decoder (`getDinode`, `getDirent`,
`getSuperblock`) and a store through it is an encoder. Shorts and uints keep their machine
widths, so decoding an encoded dinode gives back the very same dinode.
-/

namespace Xv6Disk

open ByteBuf

def MAXOPBLOCKS : Nat := 10
def LOGSIZE : Nat := MAXOPBLOCKS * 3
def NBUF : Nat := MAXOPBLOCKS * 3
def FSSIZE : Nat := 10000
def BSIZE : Nat := 1024
def ROOTINO : Nat := 1
def ROOTDEV : Nat := 1
def NDIRECT : Nat := 11
def NINDIRECT : Nat := BSIZE / 4
def MAXFILE : Nat := NDIRECT + NINDIRECT
def DIRSIZ : Nat := 14

/-- Inodes per block: a `struct dinode` has 64 bytes. -/
def IPB : Nat := BSIZE / 64

/-- Bitmap bits per block. -/
def BPB : Nat := BSIZE * 8

def T_DIR : Int16 := 1
def T_FILE : Int16 := 2
def T_DEV : Int16 := 3

/-- The content of one disk block. -/
abbrev Block := Bytes BSIZE

/-- `struct superblock`. -/
structure Superblock where
  size : Nat
  nblocks : Nat
  ninodes : Nat
  nlog : Nat
  logstart : Nat
  inodestart : Nat
  bmapstart : Nat
deriving DecidableEq, Repr

/-- Block containing inode `i`. -/
def IBLOCK (i : Nat) (sb : Superblock) : Nat := i / IPB + sb.inodestart

/-- Block of the free map containing the bit for block `b`. -/
def BBLOCK (b : Nat) (sb : Superblock) : Nat := b / BPB + sb.bmapstart

/-- The superblock at the start of a block. -/
def getSuperblock (b : Block) : Superblock where
  size := (u32At b 0).toNat
  nblocks := (u32At b 4).toNat
  ninodes := (u32At b 8).toNat
  nlog := (u32At b 12).toNat
  logstart := (u32At b 16).toNat
  inodestart := (u32At b 20).toNat
  bmapstart := (u32At b 24).toNat

/-- On-disk inode structure. -/
structure Dinode where
  type : Int16
  major : Int16
  minor : Int16
  nlink : Int16
  size : UInt32
  mtime : UInt32
  addrs : Fin (NDIRECT + 1) → UInt32

/-- A zeroed dinode, as `memset` leaves it. -/
def Dinode.zero : Dinode where
  type := 0
  major := 0
  minor := 0
  nlink := 0
  size := 0
  mtime := 0
  addrs := fun _ => 0

/-- Byte `j` of the 64 bytes of a dinode. -/
def Dinode.byte (d : Dinode) (j : Nat) : UInt8 :=
  if j < 2 then leByte d.type.toUInt16.toNat j
  else if j < 4 then leByte d.major.toUInt16.toNat (j - 2)
  else if j < 6 then leByte d.minor.toUInt16.toNat (j - 4)
  else if j < 8 then leByte d.nlink.toUInt16.toNat (j - 6)
  else if j < 12 then leByte d.size.toNat (j - 8)
  else if j < 16 then leByte d.mtime.toNat (j - 12)
  else if h : (j - 16) / 4 < NDIRECT + 1 then
    leByte (d.addrs ⟨(j - 16) / 4, h⟩).toNat ((j - 16) % 4)
  else 0

/-- The `i`th dinode of an inode block. -/
def getDinode (b : Block) (i : Nat) : Dinode where
  type := (u16At b (64 * i)).toInt16
  major := (u16At b (64 * i + 2)).toInt16
  minor := (u16At b (64 * i + 4)).toInt16
  nlink := (u16At b (64 * i + 6)).toInt16
  size := u32At b (64 * i + 8)
  mtime := u32At b (64 * i + 12)
  addrs := fun k => u32At b (64 * i + 16 + 4 * k.val)

/-- Store a dinode as the `i`th of an inode block. -/
def putDinode (b : Block) (i : Nat) (d : Dinode) : Block :=
  blit b (64 * i) 64 d.byte

/-- A directory entry: `struct dirent`. -/
structure Dirent where
  inum : UInt16
  name : Fin DIRSIZ → UInt8

/-- Byte `j` of the 16 bytes of a directory entry. -/
def Dirent.byte (de : Dirent) (j : Nat) : UInt8 :=
  if j < 2 then leByte de.inum.toNat j
  else if h : j - 2 < DIRSIZ then de.name ⟨j - 2, h⟩ else 0

/-- The directory entry that 16 bytes hold. -/
def getDirent (f : Nat → UInt8) : Dirent where
  inum := UInt16.ofNat ((f 0).toNat + 256 * (f 1).toNat)
  name := fun k => f (k.val + 2)

/-- The entry `memset` makes: free, with an empty name. -/
def Dirent.zero : Dirent where
  inum := 0
  name := fun _ => 0

/-- Word `j` of an indirect block. -/
def getAddr (b : Block) (j : Nat) : UInt32 := u32At b (4 * j)

def putAddr (b : Block) (j : Nat) (a : UInt32) : Block := putU32 b (4 * j) a

/-! ## Encoders and decoders agree -/

/-- The bytes of a word, put back together. -/
theorem u16_ofNat_leByte (v : UInt16) :
    UInt16.ofNat ((leByte v.toNat 0).toNat + 256 * (leByte v.toNat 1).toNat) = v := by
  have hv := v.toNat_lt
  rw [toNat_leByte, toNat_leByte]
  apply UInt16.toNat.inj
  rw [UInt16.toNat_ofNat']
  omega

theorem u32_ofNat_leByte (v : UInt32) : UInt32.ofNat ((leByte v.toNat 0).toNat + 256 * (leByte v.toNat 1).toNat
      + 65536 * (leByte v.toNat 2).toNat + 16777216 * (leByte v.toNat 3).toNat) = v := by
  have hv := v.toNat_lt
  rw [toNat_leByte, toNat_leByte, toNat_leByte, toNat_leByte]
  apply UInt32.toNat.inj
  rw [UInt32.toNat_ofNat']
  omega

theorem byteAt_blit_at {n : Nat} (b : Bytes n) {off len : Nat} (src : Nat → UInt8) (j : Nat) (hn : off + len ≤ n)
    (hj : j < len) : byteAt (blit b off len src) (off + j) = src j := by
  rw [byteAt_blit_in b src (by omega) (by omega) (by omega), Nat.add_sub_cancel_left]

/-- A 16-bit read inside a copied range reads the source. -/
theorem u16At_blit_in {n : Nat} (b : Bytes n) {off len : Nat} (src : Nat → UInt8) (j : Nat)
    (hn : off + len ≤ n) (hj : j + 2 ≤ len) : u16At (blit b off len src) (off + j)
      = UInt16.ofNat ((src j).toNat + 256 * (src (j + 1)).toNat) := by
  unfold u16At
  rw [Nat.add_assoc, byteAt_blit_at b src j hn (by omega), byteAt_blit_at b src _ hn (by omega)]

/-- A 32-bit read inside a copied range reads the source. -/
theorem u32At_blit_in {n : Nat} (b : Bytes n) {off len : Nat} (src : Nat → UInt8) (j : Nat)
    (hn : off + len ≤ n) (hj : j + 4 ≤ len) : u32At (blit b off len src) (off + j)
      = UInt32.ofNat ((src j).toNat + 256 * (src (j + 1)).toNat
          + 65536 * (src (j + 2)).toNat + 16777216 * (src (j + 3)).toNat) := by
  unfold u32At
  simp only [Nat.add_assoc]
  rw [byteAt_blit_at b src j hn (by omega), byteAt_blit_at b src _ hn (by omega),
    byteAt_blit_at b src _ hn (by omega), byteAt_blit_at b src _ hn (by omega)]

theorem Dinode.byte_addrs (d : Dinode) (k : Fin (NDIRECT + 1)) {i : Nat} (hi : i < 4) :
    d.byte (16 + 4 * k.val + i) = leByte (d.addrs k).toNat i := by
  have hk := k.isLt
  have hidx : (16 + 4 * k.val + i - 16) / 4 = k.val := by omega
  have hrem : (16 + 4 * k.val + i - 16) % 4 = i := by omega
  have hlt : (16 + 4 * k.val + i - 16) / 4 < NDIRECT + 1 := by rw [hidx]; exact hk
  unfold Dinode.byte
  rw [if_neg (by omega), if_neg (by omega), if_neg (by omega), if_neg (by omega),
      if_neg (by omega), if_neg (by omega), dif_pos hlt, hrem]
  congr 3
  exact Fin.ext hidx

/-- **A stored dinode reads back as it was**, in an inode block with room for it. -/
theorem getDinode_putDinode (b : Block) {i : Nat} (d : Dinode) (hi : i < IPB) : getDinode (putDinode b i d) i = d := by
  have hn : 64 * i + 64 ≤ BSIZE := by
    have : i < 16 := hi
    show 64 * i + 64 ≤ 1024
    omega
  have h16 : ∀ (j : Nat) (v : UInt16), j + 2 ≤ 64 → d.byte j = leByte v.toNat 0 → d.byte (j + 1) = leByte v.toNat 1 →
      u16At (putDinode b i d) (64 * i + j) = v := by
    intro j v hj h0 h1
    unfold putDinode
    rw [u16At_blit_in b d.byte j hn hj, h0, h1]
    exact u16_ofNat_leByte v
  have h32 : ∀ (j : Nat) (v : UInt32), j + 4 ≤ 64 → (∀ t, t < 4 → d.byte (j + t) = leByte v.toNat t) →
      u32At (putDinode b i d) (64 * i + j) = v := by
    intro j v hj ht
    unfold putDinode
    rw [u32At_blit_in b d.byte j hn hj, show d.byte j = _ from ht 0 (by omega),
        ht 1 (by omega), ht 2 (by omega), ht 3 (by omega)]
    exact u32_ofNat_leByte v
  have htype := h16 0 d.type.toUInt16 (by omega) rfl rfl
  have hmajor := h16 2 d.major.toUInt16 (by omega) rfl rfl
  have hminor := h16 4 d.minor.toUInt16 (by omega) rfl rfl
  have hnlink := h16 6 d.nlink.toUInt16 (by omega) rfl rfl
  have hsize := h32 8 d.size (by omega) (by
    intro t ht
    match t, ht with
    | 0, _ => rfl
    | 1, _ => rfl
    | 2, _ => rfl
    | 3, _ => rfl)
  have hmtime := h32 12 d.mtime (by omega) (by
    intro t ht
    match t, ht with
    | 0, _ => rfl
    | 1, _ => rfl
    | 2, _ => rfl
    | 3, _ => rfl)
  have haddrs : ∀ k : Fin (NDIRECT + 1), u32At (putDinode b i d) (64 * i + 16 + 4 * k.val) = d.addrs k := by
    intro k
    have hk : k.val < 12 := k.isLt
    rw [add_assoc]
    exact h32 (16 + 4 * k.val) (d.addrs k) (by omega) (fun t ht => d.byte_addrs k ht)
  unfold getDinode
  rw [show 64 * i = 64 * i + 0 from rfl, htype, hmajor, hminor, hnlink, hsize, hmtime]
  simp only [haddrs, add_zero, Int16.toInt16_toUInt16]

/-- Storing one dinode leaves the others of its block alone. -/
theorem getDinode_putDinode_ne (b : Block) {i j : Nat} (d : Dinode) (hij : j ≠ i) :
    getDinode (putDinode b i d) j = getDinode b j := by
  have h16 : ∀ t, t + 2 ≤ 64 → u16At (putDinode b i d) (64 * j + t) = u16At b (64 * j + t) := by
    intro t ht
    exact u16At_blit_out b _ (by omega)
  have h32 : ∀ t, t + 4 ≤ 64 → u32At (putDinode b i d) (64 * j + t) = u32At b (64 * j + t) := by
    intro t ht
    exact u32At_blit_out b _ (by omega)
  have haddrs : ∀ k : Fin (NDIRECT + 1),
      u32At (putDinode b i d) (64 * j + 16 + 4 * k.val) = u32At b (64 * j + 16 + 4 * k.val) := by
    intro k
    have hk : k.val < 12 := k.isLt
    rw [add_assoc]
    exact h32 (16 + 4 * k.val) (by omega)
  unfold getDinode
  rw [show 64 * j = 64 * j + 0 from rfl, h16 0 (by omega), h16 2 (by omega),
      h16 4 (by omega), h16 6 (by omega), h32 8 (by omega), h32 12 (by omega)]
  simp only [haddrs, add_zero]

/-- **A directory entry reads back as it was.** -/
theorem getDirent_byte (de : Dirent) : getDirent de.byte = de := by
  have hinum : UInt16.ofNat ((de.byte 0).toNat + 256 * (de.byte 1).toNat) = de.inum :=
    u16_ofNat_leByte de.inum
  have hname : (fun k : Fin DIRSIZ => de.byte (k.val + 2)) = de.name := by
    funext k
    have hk := k.isLt
    unfold Dirent.byte
    rw [if_neg (by omega), dif_pos (show k.val + 2 - 2 < DIRSIZ by omega)]
    congr 1
  unfold getDirent
  rw [hinum, hname]

/-- The decoder looks at sixteen bytes only. -/
theorem getDirent_congr {f g : Nat → UInt8} (h : ∀ j, j < 16 → f j = g j) : getDirent f = getDirent g := by
  have hname : (fun k : Fin DIRSIZ => f (k.val + 2)) = fun k : Fin DIRSIZ => g (k.val + 2) := by
    funext k
    have hk : k.val < 14 := k.isLt
    exact h _ (by omega)
  unfold getDirent
  rw [h 0 (by omega), h 1 (by omega), hname]

theorem getAddr_putAddr (b : Block) {j : Nat} (a : UInt32) (hj : j < NINDIRECT) : getAddr (putAddr b j a) j = a := by
  have : j < 256 := hj
  exact u32At_putU32 b a (by show 4 * j + 4 ≤ 1024; omega)

theorem getAddr_putAddr_ne (b : Block) {i j : Nat} (a : UInt32) (hij : j ≠ i) :
    getAddr (putAddr b i a) j = getAddr b j :=
  u32At_putU32_out b a (by omega)

@[simp] theorem getAddr_zeros (j : Nat) : getAddr (zeros : Block) j = 0 :=
  u32At_zeros _

end Xv6Disk
