import Xv6.BlockOwnerProofs

/-!
# `tools/mkfs.c` — the program that builds an image

`mkfs` walks a directory of the host and builds an image with the same files and directories: it has its
own allocators of inodes and blocks, which count upwards, its own `iappend`, and writes the free map
once at the end. A failed assertion or call stops it, and is `none` here.

A directory of the host is what `readdir` and `stat` say about it: names with files, directories, or
something else, which is skipped. The file of the image has `FSSIZE` blocks, and a read past them fails.
-/

namespace Xv6Mkfs

open ByteBuf Xv6Disk Xv6Fs Xv6Layout Xv6Own Function

def NINODES : Nat := 200
def nbitmap : Nat := FSSIZE / (BSIZE * 8) + 1
def ninodeblocks : Nat := NINODES / IPB + 1
def nlog : Nat := LOGSIZE

/-- Number of meta blocks: boot, superblock, log, inodes, bitmap. -/
def nmeta : Nat := 2 + nlog + ninodeblocks + nbitmap

/-- The superblock. -/
def sb : Superblock where
  size := FSSIZE
  nblocks := FSSIZE - nmeta
  ninodes := NINODES
  nlog := nlog
  logstart := 2
  inodestart := 2 + nlog
  bmapstart := 2 + nlog + ninodeblocks

/-- A name, without the NUL at its end. -/
abbrev Name := List UInt8

def dot : Name := [46]
def dotdot : Name := [46, 46]

mutual

/-- What `stat` finds. -/
inductive Host where
  | file (mtime : UInt32) (bytes : List UInt8)
  | dir (mtime : UInt32) (entries : Entries)
  | other

/-- What `readdir` returns, in its order. -/
inductive Entries where
  | nil
  | cons (name : Name) (host : Host) (rest : Entries)

end

/-- The image, `freeinode` and `freeblock`. -/
structure St where
  img : Nat → Block
  freeinode : Nat
  freeblock : Nat

/-! ## Sectors and inodes -/

def wsect (st : St) (sec : Nat) (buf : Block) : St := { st with img := update st.img sec buf }

def rsect (st : St) (sec : Nat) : Option Block := if sec < FSSIZE then some (st.img sec) else none

def winode (st : St) (inum : Nat) (din : Dinode) : Option St :=
  (rsect st (IBLOCK inum sb)).map fun buf => wsect st (IBLOCK inum sb) (putDinode buf (inum % IPB) din)

def rinode (st : St) (inum : Nat) : Option Dinode :=
  (rsect st (IBLOCK inum sb)).map fun buf => getDinode buf (inum % IPB)

/-- Allocate an inode. -/
def ialloc (st : St) (type : Int16) (mtime : UInt32) : Option (Nat × St) :=
  if st.freeinode + 1 < NINODES then
    (winode { st with freeinode := st.freeinode + 1 } st.freeinode
      { Dinode.zero with type := type, nlink := 1, mtime := mtime }).map fun st' => (st.freeinode, st')
  else none

/-- The free map with the first `used` blocks in use. -/
def bitmap (used : Nat) : Block := (List.range used).foldl setBit zeros

def balloc (st : St) (used : Nat) : Option St :=
  if used < BSIZE * 8 then some (wsect st sb.bmapstart (bitmap used)) else none

/-! ## `iappend` -/

/-- `din.addrs[k] = xint(freeblock++)`, if there is no block yet. -/
def takeBlock (st : St) (din : Dinode) (k : Nat) : St × Dinode :=
  if addr din k = 0 then
    ({ st with freeblock := st.freeblock + 1 }, setAddr din k (UInt32.ofNat st.freeblock))
  else (st, din)

/-- The block for `fbn`, taken if there is none: the first part of a round of `iappend`. -/
def blockFor (st : St) (din : Dinode) (fbn : Nat) : Option (St × Dinode × Nat) :=
  if fbn < NDIRECT then
    let r := takeBlock st din fbn
    some (r.1, r.2, (addr r.2 fbn).toNat)
  else
    let r := takeBlock st din NDIRECT
    (rsect r.1 (addr r.2 NDIRECT).toNat).map fun indirect =>
      if getAddr indirect (fbn - NDIRECT) = 0 then
        let a := UInt32.ofNat r.1.freeblock
        (wsect { r.1 with freeblock := r.1.freeblock + 1 } (addr r.2 NDIRECT).toNat
          (putAddr indirect (fbn - NDIRECT) a), r.2, a.toNat)
      else (r.1, r.2, (getAddr indirect (fbn - NDIRECT)).toNat)

/-- The loop of `iappend`, with at most `fuel` rounds. -/
def iappendLoop : Nat → St → Dinode → Nat → List UInt8 → Option (St × Dinode × Nat)
  | 0, st, din, off, _ => some (st, din, off)
  | fuel + 1, st, din, off, p =>
    if p = [] then some (st, din, off)
    else if off / BSIZE < MAXFILE then
      (blockFor st din (off / BSIZE)).bind fun r =>
        let n1 := min p.length ((off / BSIZE + 1) * BSIZE - off)
        (rsect r.1 r.2.2).bind fun buf =>
          iappendLoop fuel (wsect r.1 r.2.2 (blit buf (off - off / BSIZE * BSIZE) n1 fun j => p.getD j 0))
            r.2.1 (off + n1) (p.drop n1)
    else none

/-- Append `p` to the inode `inum`. A round writes a byte at least. -/
def iappend (st : St) (inum : Nat) (p : List UInt8) : Option St :=
  (rinode st inum).bind fun din =>
    (iappendLoop p.length st din din.size.toNat p).bind fun r =>
      if r.1.freeblock < FSSIZE then winode r.1 inum { r.2.1 with size := UInt32.ofNat r.2.2 } else none

/-! ## Files and directories -/

/-- A directory entry, as `dappend` makes it: `strncpy` fills up with zeros. -/
def direntOf (name : Name) (fileino : Nat) : Dirent :=
  ⟨UInt16.ofNat fileino, fun k => name.getD k.val 0⟩

def direntBytes (name : Name) (fileino : Nat) : List UInt8 :=
  (List.range 16).map (direntOf name fileino).byte

/-- Add the given name and inode number as a directory entry. -/
def dappend (st : St) (dirino : Nat) (name : Name) (fileino : Nat) : Option St :=
  iappend st dirino (direntBytes name fileino)

/-- The loop of `fappend`: `read` returns the bytes of the file a block at a time. -/
def fappendLoop (inum : Nat) : Nat → St → List UInt8 → Option St
  | 0, st, _ => some st
  | fuel + 1, st, bytes =>
    if bytes = [] then some st
    else (iappend st inum (bytes.take BSIZE)).bind fun st' => fappendLoop inum fuel st' (bytes.drop BSIZE)

/-- Add a file to a directory. -/
def fappend (st : St) (dirino : Nat) (filename : Name) (mtime : UInt32) (bytes : List UInt8) : Option St :=
  (ialloc st T_FILE mtime).bind fun r =>
    (dappend r.2 dirino filename r.1).bind fun st' => fappendLoop r.1 bytes.length st' bytes

/-- Make a directory in a directory. -/
def makdir (st : St) (dirino : Nat) (newdir : Name) (mtime : UInt32) : Option (Nat × St) :=
  (ialloc st T_DIR mtime).bind fun r =>
    (dappend r.2 r.1 dot r.1).bind fun st1 =>
      (dappend st1 r.1 dotdot dirino).bind fun st2 =>
        (dappend st2 dirino newdir r.1).map fun st3 => (r.1, st3)

mutual

/-- The body of the loop of `add_directory`. -/
def addHost (st : St) (dirino : Nat) (name : Name) : Host → Option St
  | .file mtime bytes => fappend st dirino name mtime bytes
  | .dir mtime entries => (makdir st dirino name mtime).bind fun r => addDirectory r.2 r.1 entries
  | .other => some st

/-- Add what is in a directory of the host to a directory of the image. -/
def addDirectory (st : St) (dirino : Nat) : Entries → Option St
  | .nil => some st
  | .cons name host rest =>
    if name = dot ∨ name = dotdot then addDirectory st dirino rest
    else (addHost st dirino name host).bind fun st' => addDirectory st' dirino rest

end

/-! ## `main` -/

/-- The block of the superblock. -/
def superblock : Block :=
  putU32 (putU32 (putU32 (putU32 (putU32 (putU32 (putU32 zeros 0 (UInt32.ofNat sb.size)) 4
    (UInt32.ofNat sb.nblocks)) 8 (UInt32.ofNat sb.ninodes)) 12 (UInt32.ofNat sb.nlog)) 16
    (UInt32.ofNat sb.logstart)) 20 (UInt32.ofNat sb.inodestart)) 24 (UInt32.ofNat sb.bmapstart)

/-- Zeroed blocks and the superblock. -/
def blank : St := ⟨update (fun _ => zeros) 1 superblock, 1, nmeta⟩

/-- The directories and files, before the size of the root is fixed. -/
def build (base : Entries) : Option St :=
  (ialloc blank T_DIR 0).bind fun r =>
    if r.1 = ROOTINO then
      (dappend r.2 r.1 dot r.1).bind fun st1 =>
        (dappend st1 r.1 dotdot r.1).bind fun st2 => addDirectory st2 r.1 base
    else none

/-- Fix the size of the root directory. -/
def fixRoot (st : St) : Option St :=
  (rinode st ROOTINO).bind fun din =>
    winode st ROOTINO { din with size := UInt32.ofNat ((din.size.toNat / BSIZE + 1) * BSIZE) }

/-- `mkfs fs.img basedir`: the image. -/
def mkfs (base : Entries) : Option (Nat → Block) :=
  (build base).bind fun st =>
    (fixRoot st).bind fun st' => (balloc st' st'.freeblock).map St.img

end Xv6Mkfs
