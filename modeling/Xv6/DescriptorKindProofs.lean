import Xv6.ProgNotesProofs
import Xv6.FileCallsProofs

/-!
# Descriptor calls and the kind of a descriptor

An entry of the file table that was a file once keeps its pointer `ip` when it becomes the end of a pipe, so each
call has to look at `type` before it follows `ip`. The texts of `lseek`, `fchdir`, `ioctl`, `fstat`, `read` and
`write` are written here with a note wherever they follow `ip`: the type of the entry. Without the notes they are
the texts of the calls (`erase_text`).

`fstat`, `read`, `write` and `ioctl` look first. `sys_fchdir` does not look at all, and `sys_lseek` follows `ip`
for the size; it also goes on with an uninitialised `newoff` when `base` is none of the three constants.
-/

namespace Xv6Kind

open CmdProg Xv6Disk Xv6Kernel Xv6Fs Xv6Sys Xv6Files List

/-- Kernel code with notes on the entries whose `ip` it follows. -/
abbrev N := Noted Cmd Resp FdType

/-! ## The texts with their notes -/

def filestatN (f : Fin NFILE) : N Int := do
  let x ← plain (getFile f)
  match x.type with
  | .inode => do
    note x.type
    plain do
      let ip ← fileInode x
      ilock ip
      iunlock ip
      pure 0
  | .pipe => pure 0
  | .none => pure ENOENT

def filereadN (f : Fin NFILE) (n : Int32) : N (Int × List UInt8) := do
  let x ← plain (getFile f)
  if x.readable = false then pure (EBADF, [])
  else
    match x.type with
    | .pipe => plain do
        let page ← filePipe x
        piperead page n
    | .none => plain (kpanic "fileread")
    | .inode => do
      note x.type
      plain do
        let ip ← fileInode x
        ilock ip
        let r ← readi ip x.off n.toUInt32
        modFile f fun x => if 0 < r.1 then { x with off := x.off + UInt32.ofNat r.1.toNat } else x
        iunlock ip
        pure r

def filewriteN (f : Fin NFILE) (src : Nat → UInt8) (n : Int32) : N Int := do
  let x ← plain (getFile f)
  if x.writable = false then pure EBADF
  else
    match x.type with
    | .pipe => plain do
        let page ← filePipe x
        pipewrite page src n
    | .none => plain (kpanic "filewrite")
    | .inode => do
      note x.type
      plain do
        let ip ← fileInode x
        let i ← filewriteLoop f ip src n.toInt.toNat n.toInt.toNat 0
        pure (if (i : Int) = n.toInt then n.toInt else EFBIG)

def lseekFillN (f : Fin NFILE) (src : Nat → UInt8) : (rounds : Nat) → (zerosize : Int) → N Unit
  | 0, _ => pure ()
  | k + 1, zerosize =>
    if 0 < zerosize then do
      let _ ← filewriteN f src (Int32.ofInt zerosize)
      lseekFillN f src k (zerosize - PGSIZE)
    else pure ()

def fileSizeN (x : File) : N UInt32 := do
  note x.type
  plain (fileSize x)

def lseekTargetN (x : File) (offset base uninit : Int32) : N Int32 :=
  if base = SEEK_SET then pure offset
  else if base = SEEK_CUR then pure (x.off + offset.toUInt32).toInt32
  else if base = SEEK_END then do
    let size ← fileSizeN x
    pure (size + offset.toUInt32).toInt32
  else pure uninit

def lseekToN (f : Fin NFILE) (x : File) (newoff : Int32) (after : Nat → UInt8) : N Int := do
  let size ← fileSizeN x
  (if size < newoff.toUInt32 then
    let zerosize := (newoff.toUInt32 - size).toInt32.toInt
    lseekFillN f (fun j => if j < PGSIZE then 0 else after j) (zerosize.toNat / PGSIZE + 1) zerosize
  else pure ())
  plain do
    modFile f fun x => { x with off := newoff.toUInt32 }
    pure newoff.toInt

/-- The calls on a descriptor. -/
inductive Desc where
  | lseek (offset base uninit : Int32) (after : Nat → UInt8)
  | fchdir
  | ioctl
  | fstat (st : Bool)
  | read (n : Int32) (buf : Bool)
  | write (buf : Option (Nat → UInt8)) (n : Int32)

/-- What a call does with the entry `f` of its descriptor. -/
def Desc.entry (p : Fin NPROC) (f : Fin NFILE) : Desc → N Int
  | .lseek offset base uninit after => do
    let x ← plain (getFile f)
    let newoff ← lseekTargetN x offset base uninit
    if newoff < 0 then pure EINVAL else lseekToN f x newoff after
  | .fchdir => do
    let x ← plain (getFile f)
    note x.type
    plain (match x.ip with
      | some ip => ichdir p ip
      | none => kpanic "ilock")
  | .ioctl => do
    let x ← plain (getFile f)
    if x.type ≠ .inode then pure ENOTTY
    else do
      note x.type
      plain do
        let ip ← fileInode x
        let i ← getInode ip
        if i.din.type ≠ T_DEV ∨ i.din.major ≠ CONSOLE then pure ENOTTY
        else do
          let ok ← input
          pure (if ok = 0 then -1 else 0)
  | .fstat st => if st then filestatN f else pure EINVAL
  | .read n buf =>
    if buf then do
      let r ← filereadN f n
      pure r.1
    else pure EINVAL
  | .write buf n =>
    match buf with
    | none => pure EINVAL
    | some src => filewriteN f src n

/-- What a call answers when there is no such descriptor. -/
def Desc.missing : Desc → Int
  | .fchdir => EBADF
  | _ => EINVAL

/-- The text of a call. -/
def Desc.text (p : Fin NPROC) (fd : Int32) (d : Desc) : N Int := do
  match ← plain (argfd p fd) with
  | none => pure d.missing
  | some y => d.entry p y.2

def Desc.call (fd : Int32) : Desc → Call
  | .lseek offset base uninit after => .lseek fd offset base uninit after
  | .fchdir => .fchdir fd
  | .ioctl => .ioctl fd
  | .fstat st => .fstat fd st
  | .read n buf => .read fd n buf
  | .write buf n => .write fd buf n

/-! ## Without the notes they are the calls -/

section Erase

variable {f : Fin NFILE} {x : File}

theorem erase_filestatN : erase (filestatN f) = filestat f := by
  rw [filestatN, filestat, erase_bind, erase_plain]
  congr 1
  funext x
  cases x.type with
  | none => rfl
  | pipe => rfl
  | inode => rw [erase_note, erase_plain]

theorem erase_filereadN {n : Int32} : erase (filereadN f n) = fileread f n := by
  rw [filereadN, fileread, erase_bind, erase_plain]
  congr 1
  funext x
  split_ifs with hr
  · rw [erase_pure]
  · cases x.type with
    | none => rw [erase_plain]
    | pipe => rw [erase_plain]
    | inode => rw [erase_note, erase_plain]

theorem erase_filewriteN {src : Nat → UInt8} {n : Int32} : erase (filewriteN f src n) = filewrite f src n := by
  rw [filewriteN, filewrite, erase_bind, erase_plain]
  congr 1
  funext x
  split
  · rw [erase_pure]
  · cases x.type with
    | none => rw [erase_plain]
    | pipe => rw [erase_plain]
    | inode => rw [erase_note, erase_plain]

theorem erase_lseekFillN {src : Nat → UInt8} : ∀ (k : Nat) (z : Int),
    erase (lseekFillN f src k z) = lseekFill f src k z := by
  intro k
  induction k with
  | zero => exact fun _ => rfl
  | succ k ih =>
    intro z
    rw [lseekFillN, lseekFill]
    by_cases hz : 0 < z
    · rw [if_pos hz, if_pos hz, erase_bind, erase_filewriteN]
      congr 1
      funext _
      exact ih _
    · rw [if_neg hz, if_neg hz, erase_pure]

theorem erase_fileSizeN : erase (fileSizeN x) = fileSize x := by
  rw [fileSizeN, erase_note, erase_plain]

theorem erase_lseekTargetN {offset base uninit : Int32} :
    erase (lseekTargetN x offset base uninit) = lseekTarget x offset base uninit := by
  rw [lseekTargetN, lseekTarget]
  split
  · rw [erase_pure]
  · by_cases hcur : base = SEEK_CUR
    · rw [if_pos hcur, if_pos hcur, erase_pure]
    · split_ifs with hend
      · rw [erase_bind, erase_fileSizeN]
        rfl
      · rw [erase_pure]

theorem erase_lseekToN {newoff : Int32} {after : Nat → UInt8} :
    erase (lseekToN f x newoff after) = lseekTo f x newoff after := by
  rw [lseekToN, lseekTo, erase_bind, erase_fileSizeN]
  congr 1
  funext size
  rw [erase_bind, erase_plain]
  split_ifs with hlt
  · rw [erase_lseekFillN]
  · rw [erase_pure]

theorem erase_entry {p : Fin NPROC} {fd : Int32} {d : Desc} {g : Fin NOFILE × Fin NFILE → K Int}
    (h : ∀ y, erase (d.entry p y.2) = g y) : erase (d.text p fd) = argfd p fd >>= fun
      | none => pure d.missing
      | some y => g y := by
  rw [Desc.text, erase_bind, erase_plain]
  congr 1
  funext y
  cases y with
  | none => rfl
  | some y => exact h y

/-- **Erasing the notes gives the text of the call.** -/
theorem erase_text (p : Fin NPROC) (fd : Int32) (d : Desc) : erase (d.text p fd) = syscall p (d.call fd) := by
  cases d with
  | lseek offset base uninit after =>
    refine erase_entry fun y => ?_
    dsimp only [Desc.entry]
    rw [erase_bind, erase_plain]
    congr 1
    funext x
    rw [erase_bind, erase_lseekTargetN]
    congr 1
    funext newoff
    split_ifs with hneg
    · rw [erase_pure]
    · rw [erase_lseekToN]
  | fchdir =>
    refine erase_entry fun y => ?_
    dsimp only [Desc.entry]
    rw [erase_bind, erase_plain]
    congr 1
    funext x
    refine (erase_plain _).trans ?_
    cases x.ip with
    | none => rfl
    | some ip => rfl
  | ioctl =>
    refine erase_entry fun y => ?_
    dsimp only [Desc.entry]
    rw [erase_bind, erase_plain]
    congr 1
    funext x
    split_ifs with hx
    · rw [erase_pure]
    · rw [erase_note, erase_plain]
  | fstat st =>
    refine erase_entry fun y => ?_
    cases st with
    | false => rfl
    | true => exact erase_filestatN
  | read n buf =>
    refine erase_entry fun y => ?_
    cases buf with
    | false => rfl
    | true =>
      show erase (filereadN y.2 n >>= fun r => pure r.1) = (fileread y.2 n >>= fun r => pure r.1)
      rw [erase_bind, erase_filereadN]
      rfl
  | write buf n =>
    refine erase_entry fun y => ?_
    cases buf with
    | none => rfl
    | some src => exact erase_filewriteN

end Erase

/-! ## Texts that look at the type first -/

/-- The text follows `ip` of files only. -/
abbrev Looks {α : Type} (t : N α) : Prop := OnlyNotes (· = FdType.inode) t

section Looks

variable {f : Fin NFILE} {x : File}

theorem looks_filestatN : Looks (filestatN f) := by
  refine only_bind (only_plain _) fun x => ?_
  cases x.type with
  | none => exact only_pure _
  | pipe => exact only_pure _
  | inode => exact only_bind (only_note rfl) fun _ => only_plain _

theorem looks_filereadN {n : Int32} : Looks (filereadN f n) := by
  refine only_bind (only_plain _) fun x => ?_
  split_ifs with hr
  · exact only_pure _
  · cases x.type with
    | none | pipe => exact only_plain _
    | inode => exact only_bind (only_note rfl) fun _ => only_plain _

theorem looks_filewriteN {src : Nat → UInt8} {n : Int32} : Looks (filewriteN f src n) := by
  refine only_bind (only_plain _) fun x => ?_
  split
  · exact only_pure _
  · cases x.type with
    | none | pipe => exact only_plain _
    | inode => exact only_bind (only_note rfl) fun _ => only_plain _

/-- The zeros of `sys_lseek` go through `filewrite`, which looks. -/
theorem looks_lseekFillN {src : Nat → UInt8} : ∀ (k : Nat) (z : Int), Looks (lseekFillN f src k z) := by
  intro k
  induction k with
  | zero => exact fun _ => only_pure _
  | succ k ih =>
    intro z
    rw [lseekFillN]
    split
    · exact only_bind looks_filewriteN fun _ => ih _
    · exact only_pure _

theorem looks_fileSizeN (hx : x.type = .inode) : Looks (fileSizeN x) :=
  only_bind (only_note hx) fun _ => only_plain _

theorem looks_lseekTargetN {offset base uninit : Int32} (hx : x.type = .inode) :
    Looks (lseekTargetN x offset base uninit) := by
  rw [lseekTargetN]
  split
  · exact only_pure _
  · by_cases hcur : base = SEEK_CUR
    · rw [if_pos hcur]
      exact only_pure _
    · split_ifs with hend
      · exact only_bind (looks_fileSizeN hx) fun _ => only_pure _
      · exact only_pure _

theorem looks_lseekToN {newoff : Int32} {after : Nat → UInt8} (hx : x.type = .inode) :
    Looks (lseekToN f x newoff after) := by
  refine only_bind (looks_fileSizeN hx) fun size => only_bind ?_ fun _ => only_plain _
  split_ifs with hlt
  · exact looks_lseekFillN _ _
  · exact only_pure _

/-- What `sys_lseek` does with an entry that holds `x`. -/
def lseekEntry (f : Fin NFILE) (x : File) (offset base uninit : Int32) (after : Nat → UInt8) : N Int := do
  let newoff ← lseekTargetN x offset base uninit
  if newoff < 0 then pure EINVAL else lseekToN f x newoff after

theorem looks_lseekEntry {offset base uninit : Int32} {after : Nat → UInt8} (hx : x.type = .inode) :
    Looks (lseekEntry f x offset base uninit after) := by
  refine only_bind (looks_lseekTargetN hx) fun newoff => ?_
  split_ifs with hneg
  · exact only_pure _
  · exact looks_lseekToN hx

theorem looks_ioctl {p : Fin NPROC} : Looks (Desc.ioctl.entry p f) := by
  refine only_bind (only_plain _) fun x => ?_
  split_ifs with hx
  · exact only_pure _
  · exact only_bind (only_note (not_not.mp hx)) fun _ => only_plain _

end Looks

/-! ## Every call on every descriptor -/

/-- `base` is one of the three constants. -/
def Whence (base : Int32) : Prop := base = SEEK_SET ∨ base = SEEK_CUR ∨ base = SEEK_END

/-- The target of `lseek` when the size is not asked for. -/
def plainTarget (x : File) (offset base uninit : Int32) : Int32 :=
  if base = SEEK_SET then offset
  else if base = SEEK_CUR then (x.off + offset.toUInt32).toInt32
  else uninit

/-- The target of `lseek` on the entry `x` is negative. -/
def Negative (s : LState) (x : File) (offset base uninit : Int32) : Prop :=
  (base ≠ SEEK_END ∧ plainTarget x offset base uninit < 0) ∨
    (base = SEEK_END ∧ ∃ ip, x.ip = some ip ∧ ((s.mem.icache ip).din.size + offset.toUInt32).toInt32 < 0)

/-- The call `d` respects the kind of its descriptor, whose entry is `f`: it follows `ip` of a file only, and
    `lseek` refuses a bad `base` and a negative target and changes nothing then. -/
structure Respects (p : Fin NPROC) (fd : Int32) (f : Fin NFILE) (d : Desc) (s : LState) : Prop where
  kind : ∀ t ∈ notes lstep (d.text p fd) s, t = FdType.inode
  refused : ∀ offset base uninit after, d = .lseek offset base uninit after →
    ¬ Whence base ∨ Negative s (s.mem.ftable f) offset base uninit →
    exec (syscall p (d.call fd)) s = .done EINVAL s

/-- `fchdir` is called on a file; `lseek` is called with a good `base` (or finds a negative number where
    `newoff` lies), on a file, or it is asked for a target that is negative whatever the size. -/
def Proper (x : File) : Desc → Prop
  | .lseek offset base uninit _ =>
    (Whence base ∨ uninit < 0) ∧ (x.type = .inode ∨ (base ≠ SEEK_END ∧ plainTarget x offset base uninit < 0))
  | .fchdir => x.type = .inode
  | _ => True

section Calls

variable {s : LState} {p : Fin NPROC} {fd : Int32} {y : Fin NOFILE × Fin NFILE} {d : Desc} {x : File}
  {f : Fin NFILE} {offset base uninit : Int32} {after : Nat → UInt8}

theorem exec_argfd : exec (argfd p fd) s = .done (fdOf s.mem p fd) s := by
  rw [argfd, exec_getProc, fdOf]
  split_ifs with hfd
  · cases (s.mem.ptable p).ofile ⟨fd.toInt.toNat, hfd.2⟩ with
    | none => rfl
    | some f => rfl
  · rfl

section

variable (hfd : fdOf s.mem p fd = some y)
include hfd

theorem notes_text : notes lstep (d.text p fd) s = notes lstep (d.entry p y.2) s := by
  have hrun : (argfd p fd).run lstep s = .done (some y) s := hfd ▸ exec_argfd
  exact notes_plain hrun _

/-- A text that looks respects the kind of the descriptor. -/
theorem respects_of_looks (hlook : Looks (d.entry p y.2))
    (hd : ∀ offset base uninit after, d ≠ .lseek offset base uninit after) : Respects p fd y.2 d s := by
  refine ⟨fun t ht => ?_, fun _ _ _ _ h => absurd h (hd _ _ _ _)⟩
  rw [notes_text hfd] at ht
  exact hlook.mem ht

theorem notes_lseek : notes lstep ((Desc.lseek offset base uninit after).text p fd) s =
      notes lstep (lseekEntry y.2 (s.mem.ftable y.2) offset base uninit after) s := by
  rw [notes_text hfd]
  have hrun : (getFile y.2).run lstep s = .done (s.mem.ftable y.2) s := rfl
  exact notes_plain hrun _

theorem notes_fchdir : ∃ t : K Int, notes lstep (Desc.fchdir.text p fd) s =
      (s.mem.ftable y.2).type :: notes lstep (plain t : N Int) s := by
  rw [notes_text hfd]
  have hrun : (getFile y.2).run lstep s = .done (s.mem.ftable y.2) s := rfl
  exact ⟨_, notes_plain hrun _⟩

end

/-- Apart from `SEEK_END`, the target is found without the size. -/
theorem lseekTargetN_plain (hend : base ≠ SEEK_END) :
    lseekTargetN x offset base uninit = pure (plainTarget x offset base uninit) := by
  rw [lseekTargetN, plainTarget]
  by_cases hset : base = SEEK_SET
  · rw [if_pos hset, if_pos hset]
  · rw [if_neg hset, if_neg hset]
    by_cases hcur : base = SEEK_CUR
    · rw [if_pos hcur, if_pos hcur]
    · rw [if_neg hcur, if_neg hcur, if_neg hend]

/-- `lseek` follows `ip` first of all, unless it returns before it. -/
theorem lseekEntry_follows (h : ¬ (base ≠ SEEK_END ∧ plainTarget x offset base uninit < 0)) :
    x.type ∈ notes lstep (lseekEntry f x offset base uninit after) s := by
  by_cases hend : base = SEEK_END
  · have htext : lseekTargetN x offset base uninit =
        fileSizeN x >>= fun size => pure (size + offset.toUInt32).toInt32 := by
      rw [lseekTargetN, if_neg (by rw [hend]; decide), if_neg (by rw [hend]; decide), if_pos hend]
    rw [lseekEntry, htext]
    exact mem_cons_self
  · have hpos : ¬ plainTarget x offset base uninit < 0 := fun hneg => h ⟨hend, hneg⟩
    rw [lseekEntry, lseekTargetN_plain hend]
    show x.type ∈ notes lstep (if plainTarget x offset base uninit < 0 then pure EINVAL
      else lseekToN f x (plainTarget x offset base uninit) after) s
    rw [if_neg hpos]
    exact mem_cons_self

theorem lseekEntry_early (hend : base ≠ SEEK_END) (hneg : plainTarget x offset base uninit < 0) :
    notes lstep (lseekEntry f x offset base uninit after) s = [] := by
  rw [lseekEntry, lseekTargetN_plain hend]
  show notes lstep (if plainTarget x offset base uninit < 0 then pure EINVAL
    else lseekToN f x (plainTarget x offset base uninit) after) s = []
  rw [if_pos hneg]
  rfl

/-- `sys_lseek` from the entry of its descriptor on. -/
theorem exec_lseek (hfd : fdOf s.mem p fd = some y) : exec (syscall p (.lseek fd offset base uninit after)) s =
      exec (lseekTarget (s.mem.ftable y.2) offset base uninit >>= fun newoff =>
        if newoff < 0 then pure EINVAL else lseekTo y.2 (s.mem.ftable y.2) newoff after) s := by
  show (sysLseek p fd offset base uninit after).run lstep s = _
  have hrun : (argfd p fd).run lstep s = .done (some y) s := hfd ▸ exec_argfd
  rw [sysLseek, run_bind, hrun]
  rfl

theorem lseekTarget_plain (hend : base ≠ SEEK_END) :
    lseekTarget x offset base uninit = pure (plainTarget x offset base uninit) := by
  rw [← erase_lseekTargetN, lseekTargetN_plain hend, erase_pure]

/-- A negative target is refused. -/
theorem exec_lseek_negative (hfd : fdOf s.mem p fd = some y) (h : Negative s (s.mem.ftable y.2) offset base uninit) :
    exec (syscall p (.lseek fd offset base uninit after)) s = .done EINVAL s := by
  rw [exec_lseek hfd]
  rcases h with ⟨hend, hneg⟩ | ⟨hend, ip, hip, hneg⟩
  · rw [lseekTarget_plain hend]
    show exec (if plainTarget (s.mem.ftable y.2) offset base uninit < 0 then pure EINVAL
      else lseekTo y.2 (s.mem.ftable y.2) (plainTarget (s.mem.ftable y.2) offset base uninit) after) s = _
    rw [if_pos hneg]
    rfl
  · have hset : base ≠ SEEK_SET := by rw [hend]; decide
    have hcur : base ≠ SEEK_CUR := by rw [hend]; decide
    rw [lseekTarget, if_neg hset, if_neg hcur, if_pos hend, fileSize, hip]
    show exec (if ((s.mem.icache ip).din.size + offset.toUInt32).toInt32 < 0 then pure EINVAL
      else lseekTo y.2 (s.mem.ftable y.2) ((s.mem.icache ip).din.size + offset.toUInt32).toInt32 after) s = _
    rw [if_pos hneg]
    rfl

/-- `sys_lseek` returns the offset it sets. -/
theorem lseekTo_returns {newoff : Int32} {r : Int} {s' : LState}
    (h : exec (lseekTo f x newoff after) s = .done r s') : r = newoff.toInt := by
  obtain ⟨size, s1, -, h⟩ := exec_bind_done.mp h
  obtain ⟨_, s2, -, h⟩ := exec_bind_done.mp h
  obtain ⟨_, s3, -, h⟩ := exec_bind_done.mp h
  exact (exec_pure_done.mp h).1

/-- A `base` that is none of the three is taken with the number that lies in `newoff`. -/
theorem lseek_uninit (hfd : fdOf s.mem p fd = some y) (hbase : ¬ Whence base) (hpos : ¬ uninit < 0) :
    exec (syscall p (.lseek fd offset base uninit after)) s ≠ .done EINVAL s := by
  intro hrun
  have hend : base ≠ SEEK_END := fun h => hbase (.inr (.inr h))
  have htarget : plainTarget (s.mem.ftable y.2) offset base uninit = uninit := by
    rw [plainTarget, if_neg fun h => hbase (.inl h), if_neg fun h => hbase (.inr (.inl h))]
  rw [exec_lseek hfd, lseekTarget_plain hend, htarget] at hrun
  have hgo : exec (if uninit < 0 then pure EINVAL else lseekTo y.2 (s.mem.ftable y.2) uninit after) s =
      .done EINVAL s := hrun
  rw [if_neg hpos] at hgo
  have heq := lseekTo_returns hgo
  rw [Int32.lt_iff_toInt_lt, ← heq] at hpos
  exact hpos (by decide)

/-- **A call respects the kind of its descriptor if and only if it is proper**, in every state, whatever an
    entry has been used for before. -/
theorem respects_iff (s : LState) (p : Fin NPROC) (fd : Int32) (y : Fin NOFILE × Fin NFILE) (d : Desc)
    (hfd : fdOf s.mem p fd = some y) : Respects p fd y.2 d s ↔ Proper (s.mem.ftable y.2) d := by
  cases d with
  | lseek offset base uninit after =>
    constructor
    · rintro ⟨hkind, hrefused⟩
      constructor
      · by_contra hno
        obtain ⟨hbase, hpos⟩ := not_or.mp hno
        exact lseek_uninit hfd hbase hpos (hrefused _ _ _ _ rfl (.inl hbase))
      · by_contra hno
        obtain ⟨htype, hearly⟩ := not_or.mp hno
        rw [notes_lseek hfd] at hkind
        exact htype (hkind _ (lseekEntry_follows hearly))
    · rintro ⟨hbase, hx⟩
      constructor
      · rw [notes_lseek hfd]
        rcases hx with htype | ⟨hend, hneg⟩
        · exact fun t ht => (looks_lseekEntry htype).mem ht
        · rw [lseekEntry_early hend hneg]
          exact nofun
      · intro _ _ _ _ heq hbad
        cases heq
        rcases hbad with hbad | hneg
        · -- a bad `base` that finds a negative number
          have hend : base ≠ SEEK_END := fun h => hbad (.inr (.inr h))
          refine exec_lseek_negative hfd (.inl ⟨hend, ?_⟩)
          rw [plainTarget, if_neg fun h => hbad (.inl h), if_neg fun h => hbad (.inr (.inl h))]
          exact hbase.resolve_left hbad
        · exact exec_lseek_negative hfd hneg
  | fchdir =>
    obtain ⟨t, ht⟩ := notes_fchdir hfd
    constructor
    · rintro ⟨hkind, -⟩
      rw [ht] at hkind
      exact hkind _ mem_cons_self
    · intro htype
      refine ⟨fun u hu => ?_, nofun⟩
      rw [ht] at hu
      rcases mem_cons.mp hu with rfl | hu
      · exact htype
      · have hlook : Looks (plain t : N Int) := only_plain t
        exact hlook.mem hu
  | ioctl => exact iff_of_true (respects_of_looks hfd looks_ioctl nofun) trivial
  | fstat st =>
    refine iff_of_true (respects_of_looks hfd ?_ nofun) trivial
    cases st with
    | false => exact only_pure _
    | true => exact looks_filestatN
  | read n buf =>
    refine iff_of_true (respects_of_looks hfd ?_ nofun) trivial
    cases buf with
    | false => exact only_pure _
    | true => exact only_bind looks_filereadN fun _ => only_pure _
  | write buf n =>
    refine iff_of_true (respects_of_looks hfd ?_ nofun) trivial
    cases buf with
    | none => exact only_pure _
    | some src => exact looks_filewriteN

/-- Reading from a pipe: descriptor 0 of a process that has made one. -/
theorem respects_read_piped : fdOf piped.mem initproc 0 = some (⟨0, by decide⟩, ⟨0, by decide⟩) ∧
      Respects initproc 0 ⟨0, by decide⟩ (.read 1 true) piped := by
  have hfd : fdOf piped.mem initproc 0 = some (⟨0, by decide⟩, ⟨0, by decide⟩) := rfl
  exact ⟨hfd, (respects_iff piped initproc 0 _ (.read 1 true) hfd).mpr trivial⟩

/-- A process makes a pipe and calls `fchdir` and `lseek` on its reading end: both follow `ip`. With `base` 3
    and a 5 in `newoff`, `lseek` returns 5 and sets the offset. -/
theorem descriptor_kind_ignored : Reach Fresh (fun _ _ _ => True) piped ∧
      fdOf piped.mem initproc 0 = some (⟨0, by decide⟩, ⟨0, by decide⟩) ∧
      ¬ Respects initproc 0 ⟨0, by decide⟩ .fchdir piped ∧
      ¬ Respects initproc 0 ⟨0, by decide⟩ (.lseek 0 SEEK_SET 0 fun _ => 0) piped ∧
      ¬ Respects initproc 0 ⟨0, by decide⟩ (.lseek 0 3 5 fun _ => 0) piped := by
  have hfd : fdOf piped.mem initproc 0 = some (⟨0, by decide⟩, ⟨0, by decide⟩) := rfl
  have htype : (piped.mem.ftable ⟨0, by decide⟩).type = .pipe := rfl
  refine ⟨reach_piped, hfd, ?_, ?_, ?_⟩
  · rintro ⟨hkind, -⟩
    obtain ⟨t, ht⟩ := notes_fchdir hfd
    cases htype.symm.trans (hkind _ mem_cons_self)
  · rintro ⟨hkind, -⟩
    have hpos : ¬ (SEEK_SET ≠ SEEK_END ∧ plainTarget (piped.mem.ftable ⟨0, by decide⟩) 0 SEEK_SET 0 < 0) := by
      rintro ⟨-, hneg⟩
      exact absurd hneg (by decide)
    cases htype.symm.trans (hkind _ (lseekEntry_follows hpos))
  · rintro ⟨-, hrefused⟩
    have hbase : ¬ Whence 3 := by
      rintro (h | h | h)
      · exact absurd h (by decide)
      · exact absurd h (by decide)
      · exact absurd h (by decide)
    exact lseek_uninit hfd hbase (by decide) (hrefused _ _ _ _ rfl (.inl hbase))

end Calls

end Xv6Kind
