import Xv6.FsCodeProofs

/-!
# `file.c` and `pipe.c` — open files

The functions of `kern/file.c`, and those of `kern/pipe.c` as one process at a time runs them.
An entry of the file table is its index. A pipe is a page: `kalloc` hands it out, and after
`kfree` any use of it stops the run (`freed`). Which page `kalloc` finds, and whether there is
one, is an argument of the call.

Where the code would sleep for another process, the run stops (`blocked`), unless the process
has been killed, which is one of the answers from outside.
-/

namespace Xv6Sys

open CmdProg ByteBuf Xv6Disk Xv6Kernel Xv6Fs Function

def PIPESIZE : Nat := 512

def EPERM : Int := -1
def ENOENT : Int := -2
def EBADF : Int := -9
def EACCES : Int := -13
def EEXIST : Int := -17
def ENOTDIR : Int := -20
def EISDIR : Int := -21
def EINVAL : Int := -22
def ENFILE : Int := -23
def EMFILE : Int := -24
def ENOTTY : Int := -25
def EFBIG : Int := -27
def EPIPE : Int := -32

/-! ## `file.c` -/

def getFile (f : Fin NFILE) : K File := do
  let m ← getMem
  pure (m.ftable f)

def modFile (f : Fin NFILE) (g : File → File) : K Unit :=
  modMem fun m => { m with ftable := update m.ftable f (g (m.ftable f)) }

def getProc (p : Fin NPROC) : K Proc := do
  let m ← getMem
  pure (m.ptable p)

theorem exec_getProc {α : Type} {p : Fin NPROC} {f : Proc → K α} {s : LState} :
    exec (getProc p >>= f) s = exec (f (s.mem.ptable p)) s := rfl

def modProc (p : Fin NPROC) (g : Proc → Proc) : K Unit :=
  modMem fun m => { m with ptable := update m.ptable p (g (m.ptable p)) }

/-- Allocate a file structure. -/
def filealloc : K (Option (Fin NFILE)) := do
  let m ← getMem
  match firstIdx (fun f : Fin NFILE => decide ((m.ftable f).ref = 0)) with
  | some f => do
    modFile f fun x => { x with ref := 1 }
    pure (some f)
  | none => pure none

/-- Increment ref count for file `f`. -/
def filedup (f : Fin NFILE) : K (Fin NFILE) := do
  let x ← getFile f
  if x.ref < 1 then kpanic "filedup"
  else do
    modFile f fun x => { x with ref := x.ref + 1 }
    pure f

/-! ## `pipe.c` -/

/-- What the page of a pipe holds. -/
def getPipe (page : Nat) : K Pipe := do
  let m ← getMem
  match m.pipes page with
  | some x => pure x
  | none => halt .freed

def modPipe (page : Nat) (g : Pipe → Pipe) : K Unit :=
  modMem fun m => { m with pipes := update m.pipes page ((m.pipes page).map g) }

/-- A pipe as `pipealloc` sets it up. -/
def Pipe.fresh : Pipe where
  data := fun _ => 0
  nread := 0
  nwrite := 0
  readopen := true
  writeopen := true

/-- `kalloc` for a pipe, when the allocator finds `page`. It is no page that is a pipe. -/
def kalloc (page : Nat) : K Unit := do
  let m ← getMem
  if (m.pipes page).isSome then halt (.outside "kalloc")
  else do
    point (.kalloc page)
    modMem fun m => { m with pipes := update m.pipes page (some Pipe.fresh) }

/-- `kfree` of the page of a pipe. -/
def kfree (page : Nat) : K Unit := do
  let _ ← getPipe page
  point (.kfree page)
  modMem fun m => { m with pipes := update m.pipes page none }

def pipeclose (page : Nat) (writable : Bool) : K Unit := do
  let _ ← getPipe page
  modPipe page fun x =>
    if writable then { x with writeopen := false } else { x with readopen := false }
  let x ← getPipe page
  if x.readopen = false ∧ x.writeopen = false then kfree page else pure ()

/-- The loop of `pipewrite`, from byte `i` on: were all bytes written? -/
def pipewriteLoop (page : Nat) (src : Nat → UInt8) : (rounds i : Nat) → K Bool
  | 0, _ => pure true
  | r + 1, i => do
    let x ← getPipe page
    if x.nwrite = x.nread + UInt32.ofNat PIPESIZE then do
      let killed ← input
      if x.readopen = false ∨ killed ≠ 0 then pure false else halt .blocked
    else do
      modPipe page fun x =>
        { x with data := update x.data (x.nwrite.toNat % PIPESIZE) (src i), nwrite := x.nwrite + 1 }
      pipewriteLoop page src r (i + 1)

def pipewrite (page : Nat) (src : Nat → UInt8) (n : Int32) : K Int := do
  let done ← pipewriteLoop page src n.toInt.toNat 0
  pure (if done then n.toInt else -1)

/-- The copying loop of `piperead`. -/
def pipereadLoop (page : Nat) : (rounds : Nat) → K (List UInt8)
  | 0 => pure []
  | r + 1 => do
    let x ← getPipe page
    if x.nread = x.nwrite then pure []
    else do
      modPipe page fun x => { x with nread := x.nread + 1 }
      let rest ← pipereadLoop page r
      pure (x.data (x.nread.toNat % PIPESIZE) :: rest)

def piperead (page : Nat) (n : Int32) : K (Int × List UInt8) := do
  let x ← getPipe page
  if x.nread = x.nwrite ∧ x.writeopen = true then do
    let killed ← input
    if killed ≠ 0 then pure (EPIPE, []) else halt .blocked
  else do
    let bytes ← pipereadLoop page n.toInt.toNat
    pure (bytes.length, bytes)

/-- The pipe behind a file. -/
def filePipe (x : File) : K Nat :=
  match x.pipe with
  | some page => pure page
  | none => kpanic "trap"

/-! ## Closing, reading and writing -/

/-- The inode behind a file: a pointer the code follows without a test. -/
def fileInode (x : File) : K (Fin NINODE) :=
  match x.ip with
  | some ip => pure ip
  | none => kpanic "trap"

/-- What `fileclose` does with its copy `ff` of the entry `f` whose last reference has gone. -/
def fileRelease (f : Fin NFILE) (ff : File) : K Unit :=
  match ff.type with
  | .none => pure ()
  | .pipe => do
    point (.released f)
    let page ← filePipe ff
    pipeclose page ff.writable
  | .inode => do
    point (.released f)
    let ip ← fileInode ff
    beginOp
    iput ip
    endOp

/-- Close file `f`.  (Decrement ref count, close when reaches 0.) -/
def fileclose (f : Fin NFILE) : K Unit := do
  let ff ← getFile f
  if ff.ref < 1 then kpanic "fileclose"
  else if 0 < ff.ref - 1 then modFile f fun x => { x with ref := x.ref - 1 }
  else do
    modFile f fun x => { x with ref := 0, type := .none }
    fileRelease f ff

/-- The exit `bad:` of `pipealloc`. -/
def pipeallocBad (f0 f1 : Option (Fin NFILE)) : K (Option (Fin NFILE × Fin NFILE)) := do
  (match f0 with
    | some f => fileclose f
    | none => pure () : K Unit)
  (match f1 with
    | some f => fileclose f
    | none => pure () : K Unit)
  pure none

/-- An entry becomes one end of the pipe in `page`. -/
def pipeEnd (f : Fin NFILE) (page : Nat) (writable : Bool) : K Unit := do
  point (.opened f)
  modFile f fun x => { x with
    type := .pipe, readable := !writable, writable := writable, pipe := some page }

/-- Two entries for a new pipe, in the page that `kalloc` finds. -/
def pipealloc (page : Option Nat) : K (Option (Fin NFILE × Fin NFILE)) := do
  match ← filealloc with
  | none => pipeallocBad none none
  | some f0 => do
    match ← filealloc with
    | none => pipeallocBad (some f0) none
    | some f1 =>
      match page with
      | none => pipeallocBad (some f0) (some f1)
      | some page => do
        kalloc page
        pipeEnd f0 page false
        pipeEnd f1 page true
        pure (some (f0, f1))

/-- Get metadata about file `f`; what it says is not part of the model. -/
def filestat (f : Fin NFILE) : K Int := do
  let x ← getFile f
  match x.type with
  | .inode => do
    let ip ← fileInode x
    ilock ip
    iunlock ip
    pure 0
  | .pipe => pure 0
  | .none => pure ENOENT

/-- Read from file `f`. -/
def fileread (f : Fin NFILE) (n : Int32) : K (Int × List UInt8) := do
  let x ← getFile f
  if x.readable = false then pure (EBADF, [])
  else
    match x.type with
    | .pipe => do
      let page ← filePipe x
      piperead page n
    | .none => kpanic "fileread"
    | .inode => do
      let ip ← fileInode x
      ilock ip
      let r ← readi ip x.off n.toUInt32
      modFile f fun x => if 0 < r.1 then { x with off := x.off + UInt32.ofNat r.1.toNat } else x
      iunlock ip
      pure r

/-- The most bytes `filewrite` puts into one transaction:
    `((LOGSIZE-1-1-2) / 2) * 512`. -/
def filewriteMax : Nat := ((LOGSIZE - 1 - 1 - 2) / 2) * 512

/-- One round of the loop of `filewrite`: a transaction around `writei` of `n1` bytes. -/
def filewriteChunk (f : Fin NFILE) (ip : Fin NINODE) (src : Nat → UInt8) (n1 : Nat) : K Int := do
  beginOp
  ilock ip
  let x ← getFile f
  let r ← writei ip src x.off (UInt32.ofNat n1)
  modFile f fun x => if 0 < r then { x with off := x.off + UInt32.ofNat r.toNat } else x
  iunlock ip
  endOp
  pure r

/-- The loop of `filewrite`, from byte `i` on: the value of `i` at its end. -/
def filewriteLoop (f : Fin NFILE) (ip : Fin NINODE) (src : Nat → UInt8) (n : Nat) :
    (rounds i : Nat) → K Nat
  | 0, i => pure i
  | k + 1, i =>
    if i < n then do
      let n1 := min (n - i) filewriteMax
      let r ← filewriteChunk f ip (fun j => src (i + j)) n1
      if r < 0 then pure i
      else if r ≠ n1 then kpanic "short filewrite"
      else filewriteLoop f ip src n k (i + r.toNat)
    else pure i

/-- Write to file `f`. -/
def filewrite (f : Fin NFILE) (src : Nat → UInt8) (n : Int32) : K Int := do
  let x ← getFile f
  if x.writable = false then pure EBADF
  else
    match x.type with
    | .pipe => do
      let page ← filePipe x
      pipewrite page src n
    | .none => kpanic "filewrite"
    | .inode => do
      let ip ← fileInode x
      -- a negative count makes no round and is not equal to `i` at the end
      let i ← filewriteLoop f ip src n.toInt.toNat n.toInt.toNat 0
      pure (if (i : Int) = n.toInt then n.toInt else EFBIG)

end Xv6Sys
