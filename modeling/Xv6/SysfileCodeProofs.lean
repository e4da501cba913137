import Mathlib
import Xv6.FileCodeProofs

/-!
# `sysfile.c` — the file-system calls

The functions of `kern/sysfile.c`, with `exec` of `kern/exec.c` and the file-system part of `fork`,
`exit` and `wait` from `kern/proc.c`. A system call is made by the process with index `p`. A
string or buffer argument that `argstr` or `argptr` refuses is `none`. The calls of this model
are collected in `Call`; `syscall` runs one of them.

In `sys_lseek`, `kalloc` is taken to succeed; the bytes that follow the zeroed page in kernel
memory, and the value of `newoff` when `base` is none of the three constants, are arguments of
the call, since the code reads them. In `exec`, whether there is memory comes from outside.
-/

namespace Xv6Sys

open CmdProg ByteBuf Xv6Disk Xv6Kernel Xv6Fs Function

def O_RDONLY : UInt32 := 0x0000
def O_WRONLY : UInt32 := 0x0001
def O_RDWR : UInt32 := 0x0002
def O_CREATE : UInt32 := 0x0200
def O_APPEND : UInt32 := 0x0008
def O_TRUNC : UInt32 := 0x0400

def SEEK_SET : Int32 := 0
def SEEK_CUR : Int32 := 1
def SEEK_END : Int32 := 2

/-- Fetch a file descriptor argument and the corresponding `struct file`. -/
def argfd (p : Fin NPROC) (fd : Int32) : K (Option (Fin NOFILE × Fin NFILE)) := do
  let pr ← getProc p
  if h : 0 ≤ fd.toInt ∧ fd.toInt.toNat < NOFILE then
    match pr.ofile ⟨fd.toInt.toNat, h.2⟩ with
    | some f => pure (some (⟨fd.toInt.toNat, h.2⟩, f))
    | none => pure none
  else pure none

/-- Allocate a file descriptor for the given file. -/
def fdalloc (p : Fin NPROC) (f : Fin NFILE) : K (Option (Fin NOFILE)) := do
  let pr ← getProc p
  match firstIdx (fun fd : Fin NOFILE => (pr.ofile fd).isNone) with
  | some fd => do
    modProc p fun pr => { pr with ofile := update pr.ofile fd (some f) }
    pure (some fd)
  | none => pure none

def sysDup (p : Fin NPROC) (fd : Int32) : K Int := do
  match ← argfd p fd with
  | none => pure EBADF
  | some x => do
    match ← fdalloc p x.2 with
    | none => pure EBADF
    | some fd => do
      let _ ← filedup x.2
      pure fd.val

def sysRead (p : Fin NPROC) (fd n : Int32) (buf : Bool) : K Int := do
  match ← argfd p fd with
  | none => pure EINVAL
  | some x =>
    if buf then do
      let r ← fileread x.2 n
      pure r.1
    else pure EINVAL

def sysWrite (p : Fin NPROC) (fd : Int32) (buf : Option (Nat → UInt8)) (n : Int32) : K Int := do
  match ← argfd p fd with
  | none => pure EINVAL
  | some x =>
    match buf with
    | none => pure EINVAL
    | some src => filewrite x.2 src n

def sysClose (p : Fin NPROC) (fd : Int32) : K Int := do
  match ← argfd p fd with
  | none => pure EBADF
  | some x => do
    modProc p fun pr => { pr with ofile := update pr.ofile x.1 none }
    fileclose x.2
    pure 0

def sysFstat (p : Fin NPROC) (fd : Int32) (st : Bool) : K Int := do
  match ← argfd p fd with
  | none => pure EINVAL
  | some x => if st then filestat x.2 else pure EINVAL

/-- The exit `bad:` of `sys_link`: take back the link count. -/
def sysLinkBad (ip : Fin NINODE) : K Int := do
  ilock ip
  modDin ip fun d => { d with nlink := d.nlink - 1 }
  iupdate ip
  iunlockput ip
  endOp
  pure EEXIST

/-- The second half of `sys_link`, after the link count has been raised. -/
def sysLinkInto (p : Fin NPROC) (ip : Fin NINODE) (new : List UInt8) : K Int := do
  match ← nameiparent p new with
  | none => sysLinkBad ip
  | some x => do
    ilock x.1
    let d ← getInode x.1
    let i ← getInode ip
    if d.dev ≠ i.dev then do
      iunlockput x.1
      sysLinkBad ip
    else do
      let r ← dirlink x.1 x.2 i.inum
      if r < 0 then do
        iunlockput x.1
        sysLinkBad ip
      else do
        iunlockput x.1
        iput ip
        endOp
        pure 0

/-- Create the path `new` as a link to the same inode as `old`. -/
def sysLink (p : Fin NPROC) (old new : Option (List UInt8)) : K Int :=
  match old, new with
  | some old, some new => do
    beginOp
    match ← namei p old with
    | none => do
      endOp
      pure (-1)
    | some ip => do
      ilock ip
      let i ← getInode ip
      if i.din.type = T_DIR then do
        iunlockput ip
        endOp
        pure ENOENT
      else do
        modDin ip fun d => { d with nlink := d.nlink + 1 }
        iupdate ip
        iunlock ip
        sysLinkInto p ip new
  | _, _ => pure EINVAL

def isdiremptyLoop (dp : Fin NINODE) : (rounds off : Nat) → K Bool
  | 0, _ => pure true
  | r + 1, off => do
    let i ← getInode dp
    if off < i.din.size.toNat then do
      let x ← readi dp (UInt32.ofNat off) 16
      if x.1 ≠ 16 then kpanic "isdirempty: readi"
      else if (direntOf x.2).inum ≠ 0 then pure false
      else isdiremptyLoop dp r (off + 16)
    else pure true

/-- Is the directory `dp` empty except for "." and ".." ? -/
def isdirempty (dp : Fin NINODE) : K Bool := do
  let i ← getInode dp
  isdiremptyLoop dp (i.din.size.toNat / 16 + 1) 32

def dot : List UInt8 := [46]
def dotdot : List UInt8 := [46, 46]

/-- The exit `bad:` of `sys_unlink`. -/
def sysUnlinkBad (dp : Fin NINODE) : K Int := do
  iunlockput dp
  endOp
  pure EPERM

/-- The removing half of `sys_unlink`: the entry at `off` of `dp` is cleared and `ip` loses
    a link. -/
def sysUnlinkEntry (dp ip : Fin NINODE) (off : Nat) : K Int := do
  let r ← writei dp Dirent.zero.byte (UInt32.ofNat off) 16
  if r ≠ 16 then kpanic "unlink: writei"
  else do
    let i ← getInode ip
    (if i.din.type = T_DIR then do
        modDin dp fun d => { d with nlink := d.nlink - 1 }
        iupdate dp
      else pure ())
    iunlockput dp
    modDin ip fun d => { d with nlink := d.nlink - 1 }
    iupdate ip
    iunlockput ip
    endOp
    pure 0

/-- May `ip`, which is locked, be unlinked? A directory must be empty. -/
def unlinkable (ip : Fin NINODE) : K Bool := do
  let i ← getInode ip
  if i.din.type = T_DIR then isdirempty ip else pure true

def sysUnlink (p : Fin NPROC) (path : Option (List UInt8)) : K Int :=
  match path with
  | none => pure EINVAL
  | some path => do
    beginOp
    match ← nameiparent p path with
    | none => do
      endOp
      pure ENOENT
    | some x => do
      ilock x.1
      -- Cannot unlink "." or "..".
      if namecmp x.2 dot = 0 ∨ namecmp x.2 dotdot = 0 then sysUnlinkBad x.1
      else do
        match ← dirlookup x.1 x.2 with
        | none => sysUnlinkBad x.1
        | some y => do
          ilock y.1
          let i ← getInode y.1
          if i.din.nlink < 1 then kpanic "unlink: nlink < 1"
          else do
            let ok ← unlinkable y.1
            if ok then sysUnlinkEntry x.1 y.1 y.2
            else do
              iunlockput y.1
              sysUnlinkBad x.1

/-- Create the "." and ".." entries of a new directory `ip` in `dp`. -/
def createDots (dp ip : Fin NINODE) : K Unit := do
  modDin dp fun d => { d with nlink := d.nlink + 1 }   -- for ".."
  iupdate dp
  let i ← getInode ip
  let r ← dirlink ip dot i.inum
  if r < 0 then kpanic "create dots"
  else do
    let d ← getInode dp
    let r ← dirlink ip dotdot d.inum
    if r < 0 then kpanic "create dots" else pure ()

/-- The half of `create` that makes a new inode and enters it in `dp` under `name`. -/
def createNew (dp : Fin NINODE) (name : List UInt8) (type major minor : Int16) :
    K (Option (Fin NINODE)) := do
  let d ← getInode dp
  let ip ← ialloc d.dev type
  ilock ip
  modDin ip fun d => { d with major := major, minor := minor, nlink := 1 }
  iupdate ip
  (if type = T_DIR then createDots dp ip else pure ())
  let i ← getInode ip
  let r ← dirlink dp name i.inum
  if r < 0 then kpanic "create: dirlink"
  else do
    iunlockput dp
    pure (some ip)

def create (p : Fin NPROC) (path : List UInt8) (type major minor : Int16) :
    K (Option (Fin NINODE)) := do
  match ← nameiparent p path with
  | none => pure none
  | some x => do
    ilock x.1
    match ← dirlookup x.1 x.2 with
    | some y => do
      iunlockput x.1
      ilock y.1
      let i ← getInode y.1
      if type = T_FILE ∧ i.din.type ≠ T_DIR then pure (some y.1)
      else do
        iunlockput y.1
        pure none
    | none => createNew x.1 x.2 type major minor

/-- The first part of `sys_open`, inside its transaction: the inode, locked, or an error. -/
def sysOpenInode (p : Fin NPROC) (path : List UInt8) (omode : UInt32) :
    K (Except Int (Fin NINODE)) :=
  if omode &&& O_CREATE ≠ 0 then do
    match ← create p path T_FILE 0 0 with
    | none => do
      endOp
      pure (.error EEXIST)
    | some ip => pure (.ok ip)
  else do
    match ← namei p path with
    | none => do
      endOp
      pure (.error ENOENT)
    | some ip => do
      ilock ip
      let i ← getInode ip
      if i.din.type = T_DIR ∧ omode ≠ O_RDONLY then do
        iunlockput ip
        endOp
        pure (.error EISDIR)
      else pure (.ok ip)

/-- A file structure and a descriptor for it, or neither. -/
def sysOpenFile (p : Fin NPROC) : K (Option (Fin NFILE × Fin NOFILE)) := do
  match ← filealloc with
  | none => pure none
  | some f => do
    match ← fdalloc p f with
    | none => do
      fileclose f
      pure none
    | some fd => pure (some (f, fd))

/-- Fill in the file structure of a freshly opened inode. -/
def sysOpenFill (f : Fin NFILE) (ip : Fin NINODE) (omode : UInt32) : K Unit := do
  let i ← getInode ip
  point (.opened f)
  modFile f fun x => { x with
    type := .inode
    ip := some ip
    off := if omode &&& O_APPEND ≠ 0 then i.din.size else 0
    readable := decide (omode &&& O_WRONLY = 0)
    writable := decide (omode &&& O_WRONLY ≠ 0) || decide (omode &&& O_RDWR ≠ 0) }

/-- The rest of `sys_open`, with the inode in hand. -/
def sysOpenFinish (p : Fin NPROC) (ip : Fin NINODE) (omode : UInt32) : K Int := do
  match ← sysOpenFile p with
  | none => do
    iunlockput ip
    endOp
    pure EACCES
  | some x => do
    (if omode &&& O_TRUNC ≠ 0 then itrunc ip else pure ())
    iunlock ip
    endOp
    sysOpenFill x.1 ip omode
    pure x.2.val

def sysOpen (p : Fin NPROC) (path : Option (List UInt8)) (omode : UInt32) : K Int :=
  match path with
  | none => pure EINVAL
  | some path => do
    beginOp
    match ← sysOpenInode p path omode with
    | .error e => pure e
    | .ok ip => sysOpenFinish p ip omode

/-- `sys_mkdir` and `sys_mknod`: `create`, then let go of the new inode. -/
def sysCreate (p : Fin NPROC) (path : Option (List UInt8)) (type major minor : Int16)
    (err : Int) : K Int := do
  beginOp
  match path with
  | none => do
    endOp
    pure err
  | some path => do
    match ← create p path type major minor with
    | none => do
      endOp
      pure err
    | some ip => do
      iunlockput ip
      endOp
      pure 0

def sysMkdir (p : Fin NPROC) (path : Option (List UInt8)) : K Int :=
  sysCreate p path T_DIR 0 0 EEXIST

def sysMknod (p : Fin NPROC) (path : Option (List UInt8)) (major minor : Int16) : K Int :=
  sysCreate p path T_DEV major minor EINVAL

/-- The pointer `proc->cwd`, which `iput` follows without a test. -/
def procCwd (p : Fin NPROC) : K (Fin NINODE) := do
  let pr ← getProc p
  match pr.cwd with
  | some ip => pure ip
  | none => kpanic "trap"

def ichdir (p : Fin NPROC) (ip : Fin NINODE) : K Int := do
  ilock ip
  let i ← getInode ip
  if i.din.type ≠ T_DIR then do
    iunlockput ip
    endOp
    pure ENOTDIR
  else do
    iunlock ip
    let cwd ← procCwd p
    iput cwd
    endOp
    modProc p fun pr => { pr with cwd := some ip }
    pure 0

def sysChdir (p : Fin NPROC) (path : Option (List UInt8)) : K Int := do
  beginOp
  match path with
  | none => do
    endOp
    pure ENOENT
  | some path => do
    match ← namei p path with
    | none => do
      endOp
      pure ENOENT
    | some ip => ichdir p ip

/-- The pointer `f->ip` goes to `ichdir` as it is. -/
def sysFchdir (p : Fin NPROC) (fd : Int32) : K Int := do
  match ← argfd p fd with
  | none => pure EBADF
  | some y => do
    let x ← getFile y.2
    match x.ip with
    | some ip => ichdir p ip
    | none => kpanic "ilock"

/-! ## `exec` -/

def ELF_MAGIC : UInt32 := 0x464C457F
def ELF_PROG_LOAD : UInt32 := 1
def KERNBASE : UInt32 := 0x80000000

/-- Four bytes of a header as a number. -/
def wordAt (bytes : List UInt8) (o : Nat) : UInt32 :=
  UInt32.ofNat ((bytes.getD o 0).toNat + 256 * (bytes.getD (o + 1) 0).toNat
    + 65536 * (bytes.getD (o + 2) 0).toNat + 16777216 * (bytes.getD (o + 3) 0).toNat)

/-- Two bytes of a header as a number. -/
def shortAt (bytes : List UInt8) (o : Nat) : Nat :=
  (bytes.getD o 0).toNat + 256 * (bytes.getD (o + 1) 0).toNat

/-- `allocuvm`: the new size, or 0. -/
def allocuvm (oldsz newsz : UInt32) : K UInt32 :=
  if KERNBASE ≤ newsz then pure 0
  else if newsz < oldsz then pure oldsz
  else do
    let room ← input
    pure (if room = 0 then 0 else newsz)

/-- The loop of `loaduvm`: was the whole segment read? -/
def loaduvmLoop (ip : Fin NINODE) (offset sz : UInt32) : (rounds i : Nat) → K Bool
  | 0, _ => pure true
  | r + 1, i =>
    if i < sz.toNat then do
      let n := min (sz.toNat - i) PGSIZE
      let x ← readi ip (offset + UInt32.ofNat i) (UInt32.ofNat n)
      if x.1 ≠ n then pure false else loaduvmLoop ip offset sz r (i + PGSIZE)
    else pure true

/-- Load a program segment at `vaddr` from inode `ip`. -/
def loaduvm (vaddr : UInt32) (ip : Fin NINODE) (offset sz : UInt32) : K Bool :=
  if vaddr.toNat % PGSIZE ≠ 0 then kpanic "loaduvm: addr must be page aligned"
  else loaduvmLoop ip offset sz (sz.toNat / PGSIZE + 1) 0

/-- The loop of `exec` over the program headers: the size of the new image, or `none` for the
    exit `bad:`. -/
def execLoad (ip : Fin NINODE) : (rounds : Nat) → (off sz : UInt32) → K (Option UInt32)
  | 0, _, sz => pure (some sz)
  | r + 1, off, sz => do
    let x ← readi ip off 32
    let ph := x.2
    if x.1 ≠ 32 then pure none
    else if wordAt ph 0 ≠ ELF_PROG_LOAD then execLoad ip r (off + 32) sz
    else if wordAt ph 20 < wordAt ph 16 then pure none
    else do
      let sz ← allocuvm sz (wordAt ph 8 + wordAt ph 20)
      if sz = 0 then pure none
      else do
        let ok ← loaduvm (wordAt ph 8) ip (wordAt ph 4) (wordAt ph 16)
        if ok then execLoad ip r (off + 32) sz else pure none

/-- The part of `exec` that reads the file `ip`, which is locked. -/
def execImage (ip : Fin NINODE) : K (Option UInt32) := do
  let x ← readi ip 0 52
  -- an error is -1, which as an unsigned number is not below `sizeof(elf)`: the code goes on
  -- with what was on the stack
  let elf ← (if x.1 < 0 then inputBytes 52 else pure x.2 : K (List UInt8))
  if 0 ≤ x.1 ∧ x.1 < 52 then pure none
  else if wordAt elf 0 ≠ ELF_MAGIC then pure none
  else do
    let pgdir ← input   -- `setupkvm`
    if pgdir = 0 then pure none
    else execLoad ip (shortAt elf 44) (wordAt elf 28) 0

/-- `exec`. After the file has been read, its stack and arguments may still find no room. -/
def execFile (p : Fin NPROC) (path : List UInt8) : K Int := do
  beginOp
  match ← namei p path with
  | none => do
    endOp
    pure (-1)
  | some ip => do
    ilock ip
    let image ← execImage ip
    iunlockput ip
    endOp
    match image with
    | none => pure (-1)
    | some _ => do
      let room ← input
      pure (if room = 0 then -1 else 0)

/-- `sys_exec`: the path, or the error for arguments that cannot be fetched. -/
def sysExec (p : Fin NPROC) (path : Except Int (List UInt8)) : K Int :=
  match path with
  | .error e => pure e
  | .ok path => execFile p path

/-! ## `pipe`, `lseek` and `ioctl` -/

/-- `sys_pipe`, when `kalloc` finds `page`. -/
def sysPipe (p : Fin NPROC) (fd : Bool) (page : Option Nat) : K Int :=
  if fd then do
    match ← pipealloc page with
    | none => pure EMFILE
    | some x => do
      match ← fdalloc p x.1 with
      | none => do
        fileclose x.1
        fileclose x.2
        pure ENFILE
      | some fd0 => do
        match ← fdalloc p x.2 with
        | none => do
          modProc p fun pr => { pr with ofile := update pr.ofile fd0 none }
          fileclose x.1
          fileclose x.2
          pure ENFILE
        | some _ => pure 0
  else pure EINVAL

/-- The loop of `sys_lseek` that writes zeros: `filewrite` of all that is left, one page
    less each round. -/
def lseekFill (f : Fin NFILE) (src : Nat → UInt8) : (rounds : Nat) → (zerosize : Int) → K Unit
  | 0, _ => pure ()
  | k + 1, zerosize =>
    if 0 < zerosize then do
      let _ ← filewrite f src (Int32.ofInt zerosize)
      lseekFill f src k (zerosize - PGSIZE)
    else pure ()

/-- `f->ip->size`. For a file that has never had an inode the pointer is null, and the code
    reads what the process keeps at that place of its own memory. -/
def fileSize (x : File) : K UInt32 :=
  match x.ip with
  | some ip => do
    let i ← getInode ip
    pure i.din.size
  | none => input

/-- `newoff`, a signed 32-bit number. Only `SEEK_END` looks at the size. -/
def lseekTarget (x : File) (offset base uninit : Int32) : K Int32 :=
  if base = SEEK_SET then pure offset
  else if base = SEEK_CUR then pure (x.off + offset.toUInt32).toInt32
  else if base = SEEK_END then do
    let size ← fileSize x
    pure (size + offset.toUInt32).toInt32
  else pure uninit

/-- The rest of `sys_lseek`, for a `newoff` that is not negative. -/
def lseekTo (f : Fin NFILE) (x : File) (newoff : Int32) (after : Nat → UInt8) : K Int := do
  let size ← fileSize x
  (if size < newoff.toUInt32 then
    let zerosize := (newoff.toUInt32 - size).toInt32.toInt
    lseekFill f (fun j => if j < PGSIZE then 0 else after j)
      (zerosize.toNat / PGSIZE + 1) zerosize
  else pure ())
  modFile f fun x => { x with off := newoff.toUInt32 }
  pure newoff.toInt

def sysLseek (p : Fin NPROC) (fd offset base uninit : Int32) (after : Nat → UInt8) : K Int := do
  match ← argfd p fd with
  | none => pure EINVAL
  | some y => do
    let x ← getFile y.2
    let newoff ← lseekTarget x offset base uninit
    if newoff < 0 then pure EINVAL else lseekTo y.2 x newoff after

/-- `sys_ioctl`: the console answers, everything else refuses. -/
def sysIoctl (p : Fin NPROC) (fd : Int32) : K Int := do
  match ← argfd p fd with
  | none => pure EINVAL
  | some y => do
    let x ← getFile y.2
    if x.type ≠ .inode then pure ENOTTY
    else do
      let ip ← fileInode x
      let i ← getInode ip
      if i.din.type ≠ T_DEV ∨ i.din.major ≠ CONSOLE then pure ENOTTY
      else do
        let ok ← input
        pure (if ok = 0 then -1 else 0)

/-! ## The file-system part of `fork`, `exit` and `wait` -/

def initproc : Fin NPROC := ⟨0, Nat.zero_lt_succ _⟩

def forkFiles (p np : Fin NPROC) : (rounds fd : Nat) → K Unit
  | 0, _ => pure ()
  | r + 1, fd => do
    let pr ← getProc p
    if h : fd < NOFILE then
      match pr.ofile ⟨fd, h⟩ with
      | some f => do
        let f ← filedup f
        modProc np fun x => { x with ofile := update x.ofile ⟨fd, h⟩ (some f) }
        forkFiles p np r (fd + 1)
      | none => forkFiles p np r (fd + 1)
    else pure ()

/-- `fork`; `room` says whether there was memory for the child. -/
def sysFork (p : Fin NPROC) (room : Bool) : K Int := do
  let m ← getMem
  match firstIdx (fun q : Fin NPROC => decide ((m.ptable q).state = .unused)) with
  | none => pure (-1)
  | some np =>
    if room then do
      forkFiles p np NOFILE 0
      let cwd ← procCwd p
      let cwd ← idup cwd
      modProc np fun x => { x with cwd := some cwd, state := .runnable, parent := some p }
      pure np.val
    else pure (-1)

def exitFiles (p : Fin NPROC) : (rounds fd : Nat) → K Unit
  | 0, _ => pure ()
  | r + 1, fd => do
    let pr ← getProc p
    if h : fd < NOFILE then
      match pr.ofile ⟨fd, h⟩ with
      | some f => do
        fileclose f
        modProc p fun x => { x with ofile := update x.ofile ⟨fd, h⟩ none }
        exitFiles p r (fd + 1)
      | none => exitFiles p r (fd + 1)
    else pure ()

/-- Pass abandoned children to init. -/
def reparent (p : Fin NPROC) (x : Proc) : Proc :=
  if x.parent = some p then { x with parent := some initproc } else x

def sysExit (p : Fin NPROC) : K Int :=
  if p = initproc then kpanic "init exiting"
  else do
    exitFiles p NOFILE 0
    beginOp
    let cwd ← procCwd p
    iput cwd
    endOp
    modProc p fun x => { x with cwd := none }
    modMem fun m => { m with ptable := fun q => reparent p (m.ptable q) }
    modProc p fun x => { x with state := .zombie }
    pure 0

def sysWait (p : Fin NPROC) : K Int := do
  let m ← getMem
  match firstIdx (fun q : Fin NPROC => decide ((m.ptable q).parent = some p) &&
      decide ((m.ptable q).state = .zombie)) with
  | some q => do
    modProc q fun x => { x with state := .unused, parent := none }
    pure q.val
  | none =>
    match firstIdx (fun q : Fin NPROC => decide ((m.ptable q).parent = some p)) with
    | none => pure (-1)
    | some _ => do
      let killed ← input
      if killed ≠ 0 then pure (-1) else halt .blocked

/-! ## Calls -/

/-- The system calls of the model. -/
inductive Call where
  | openFile (path : Option (List UInt8)) (omode : UInt32)
  | read (fd n : Int32) (buf : Bool)
  | write (fd : Int32) (buf : Option (Nat → UInt8)) (n : Int32)
  | close (fd : Int32)
  | dup (fd : Int32)
  | fstat (fd : Int32) (st : Bool)
  | lseek (fd offset base uninit : Int32) (after : Nat → UInt8)
  | ioctl (fd : Int32)
  | pipe (fd : Bool) (page : Option Nat)
  | link (old new : Option (List UInt8))
  | unlink (path : Option (List UInt8))
  | mkdir (path : Option (List UInt8))
  | mknod (path : Option (List UInt8)) (major minor : Int16)
  | chdir (path : Option (List UInt8))
  | fchdir (fd : Int32)
  | exec (path : Except Int (List UInt8))
  | fork (room : Bool)
  | exit
  | wait
  /-- `getpid`, `kill`, `sbrk`, `sleep`, `uptime`, `time`: nothing of the file system -/
  | other

/-- The code of a call made by process `p`. -/
def syscall (p : Fin NPROC) : Call → K Int
  | .openFile path omode => sysOpen p path omode
  | .read fd n buf => sysRead p fd n buf
  | .write fd buf n => sysWrite p fd buf n
  | .close fd => sysClose p fd
  | .dup fd => sysDup p fd
  | .fstat fd st => sysFstat p fd st
  | .lseek fd offset base uninit after => sysLseek p fd offset base uninit after
  | .ioctl fd => sysIoctl p fd
  | .pipe fd page => sysPipe p fd page
  | .link old new => sysLink p old new
  | .unlink path => sysUnlink p path
  | .mkdir path => sysMkdir p path
  | .mknod path major minor => sysMknod p path major minor
  | .chdir path => sysChdir p path
  | .fchdir fd => sysFchdir p fd
  | .exec path => sysExec p path
  | .fork room => sysFork p room
  | .exit => sysExit p
  | .wait => sysWait p
  | .other => do
    let v ← input
    pure v.toInt32.toInt

end Xv6Sys
