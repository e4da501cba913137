import Xv6.CommandProgProofs
import Xv6.DiskFormatProofs

/-!
# The kernel's commands and the logical machine

The file-system code of the kernel (`fs.c`, `file.c`, `sysfile.c`) works on three things: disk
blocks, through `bread`, stores into the buffer, `log_write` and `brelse`; the log's
brackets `begin_op` and `end_op`; and the kernel's own tables in memory. `Cmd` lists
these as commands, and the code becomes a program over them (`K`).

This file gives the first of two machines for such programs, the **logical machine**: a
block is what the buffer cache shows of it (`view`), the log is the list of block numbers
in `lh.block[0..n)`, and `end_op` of the last outstanding operation empties that list. The
second machine, with buffers, a log on disk and single-block disk writes, is in
`BufferCacheProofs`.

The disk has one file-system device (`ROOTDEV`; "we run with one dev", `fs.c`), so a block
is named by its number alone. Sleeping on a condition that only another process could
change stops a run (`blocked`): system calls run one after another here.
-/

namespace Xv6Kernel

open CmdProg ByteBuf Xv6Disk Function List Prog

def NPROC : Nat := 64
def NOFILE : Nat := 16
def NFILE : Nat := 100
def NINODE : Nat := 50
def PGSIZE : Nat := 4096

/-- In-memory copy of an inode: `struct inode`. The fields copied from the disk are one
    dinode; `busy` and `valid` are the flags `I_BUSY` and `I_VALID`. -/
structure Inode where
  dev : Nat
  inum : Nat
  ref : Int
  busy : Bool
  valid : Bool
  din : Dinode

/-- The kind of an open file. -/
inductive FdType where
  | none
  | pipe
  | inode
deriving DecidableEq, Repr

/-- A pipe: `struct pipe`. It lives in a page of its own; a pointer to it is the number of
    that page. -/
structure Pipe where
  data : Nat → UInt8
  nread : UInt32
  nwrite : UInt32
  readopen : Bool
  writeopen : Bool

/-- An entry of the file table: `struct file`. -/
structure File where
  type : FdType
  ref : Int
  readable : Bool
  writable : Bool
  pipe : Option Nat
  ip : Option (Fin NINODE)
  off : UInt32

/-- The process states the file-system calls can tell apart. -/
inductive ProcState where
  | unused
  | runnable
  | zombie
deriving DecidableEq, Repr

/-- What a process has of the file system: `ofile` and `cwd` of `struct proc`. -/
structure Proc where
  state : ProcState
  parent : Option (Fin NPROC)
  ofile : Fin NOFILE → Option (Fin NFILE)
  cwd : Option (Fin NINODE)

/-- The kernel's tables: the superblock copy, the inode cache, the file table, the process
    table, and the pages that are pipes. -/
structure Mem where
  sb : Superblock
  icache : Fin NINODE → Inode
  ftable : Fin NFILE → File
  ptable : Fin NPROC → Proc
  pipes : Nat → Option Pipe

/-- The tables at power-on: all zero. -/
def Mem.blank : Mem where
  sb := ⟨0, 0, 0, 0, 0, 0, 0⟩
  icache := fun _ => ⟨0, 0, 0, false, false, Dinode.zero⟩
  ftable := fun _ => ⟨.none, 0, false, false, none, none, 0⟩
  ptable := fun _ => ⟨.unused, none, fun _ => none, none⟩
  pipes := fun _ => none

/-- Why a run stops before its end. -/
inductive Stop where
  /-- the kernel called `panic` -/
  | panic (msg : String)
  /-- the process sleeps and no other process runs -/
  | blocked
  /-- the code used a page after `kfree` -/
  | freed
  /-- an answer from outside that cannot be: `kalloc` gives out no page twice -/
  | outside (what : String)
deriving DecidableEq, Repr

/-- Points of the code that statements refer to. -/
inductive Point where
  /-- `iput` is entered -/
  | iput
  /-- a file-table entry gets its inode or its end of a pipe -/
  | opened (f : Fin NFILE)
  /-- the inode or the end of a pipe of a file-table entry is given back -/
  | released (f : Fin NFILE)
  /-- a page becomes a pipe -/
  | kalloc (page : Nat)
  /-- a page stops being a pipe -/
  | kfree (page : Nat)
deriving DecidableEq, Repr

/-- The commands of the file-system code. -/
inductive Cmd where
  | bread (b : Nat)
  | bstore (b : Nat) (d : Block)
  | logWrite (b : Nat)
  | brelse (b : Nat)
  | bwrite (b : Nat)
  | beginOp
  | endOp
  | getMem
  | setMem (m : Mem)
  | input
  | point (e : Point)
  | stop (e : Stop)

/-- What a command answers. -/
def Resp : Cmd → Type
  | .bread _ => Block
  | .getMem => Mem
  | .input => UInt32
  | .stop _ => Empty
  | _ => Unit

/-- Kernel code. -/
abbrev K := Prog Cmd Resp

def bread (b : Nat) : K Block := cmd (Cmd.bread b)
def bstore (b : Nat) (d : Block) : K Unit := cmd (Cmd.bstore b d)
def logWrite (b : Nat) : K Unit := cmd (Cmd.logWrite b)
def brelse (b : Nat) : K Unit := cmd (Cmd.brelse b)
def bwrite (b : Nat) : K Unit := cmd (Cmd.bwrite b)
def beginOp : K Unit := cmd Cmd.beginOp
def endOp : K Unit := cmd Cmd.endOp
def getMem : K Mem := cmd Cmd.getMem
def setMem (m : Mem) : K Unit := cmd (Cmd.setMem m)
def input : K UInt32 := cmd Cmd.input
def point (e : Point) : K Unit := cmd (Cmd.point e)
def halt {α : Type} (e : Stop) : K α := op (Cmd.stop e) Empty.elim
def kpanic {α : Type} (msg : String) : K α := halt (.panic msg)

/-- Change the kernel's tables. -/
def modMem (f : Mem → Mem) : K Unit := do
  let m ← getMem
  setMem (f m)

/-- The state of the logical machine. `logSize` is `log.size`, `input` what the outside
    world (the clock, the devices, the allocator of memory) answers next, and `passed` how
    often each point has been passed. -/
structure LState where
  view : Nat → Block
  lh : List Nat
  logSize : Nat
  outstanding : Int
  mem : Mem
  input : Nat → UInt32
  passed : Point → Nat

/-- `lh.block[0..n)` after `log_write`: a block already there is absorbed. -/
def absorb (lh : List Nat) (b : Nat) : List Nat :=
  if b ∈ lh then lh else lh ++ [b]

/-- The logical machine. -/
def lstep : Handler Cmd Resp Stop LState
  | .bread b, s =>
    -- `idestart` refuses a block past the end of the disk
    if b < FSSIZE then .done (s.view b) s else .stop (.panic "incorrect blockno") s
  | .bstore b d, s => .done () { s with view := update s.view b d }
  | .logWrite b, s =>
    if LOGSIZE ≤ s.lh.length ∨ (s.logSize : Int) - 1 ≤ s.lh.length then
      .stop (.panic "too big a transaction") s
    else if s.outstanding < 1 then .stop (.panic "log_write outside of trans") s
    else .done () { s with lh := absorb s.lh b }
  | .brelse _, s => .done () s
  -- the disk gets what the buffer cache shows already
  | .bwrite _, s => .done () s
  | .beginOp, s =>
    if (LOGSIZE : Int) < s.lh.length + (s.outstanding + 1) * MAXOPBLOCKS then
      .stop .blocked s
    else .done () { s with outstanding := s.outstanding + 1 }
  | .endOp, s =>
    if s.outstanding - 1 = 0 then .done () { s with outstanding := 0, lh := [] }
    else .done () { s with outstanding := s.outstanding - 1 }
  | .getMem, s => .done s.mem s
  | .setMem m, s => .done () { s with mem := m }
  | .input, s => .done (s.input 0) { s with input := fun k => s.input (k + 1) }
  | .point e, s => .done () { s with passed := update s.passed e (s.passed e + 1) }
  | .stop e, s => .stop e s

/-- Run kernel code on the logical machine. -/
def exec {α : Type} (p : K α) (s : LState) : Out Stop LState α := p.run lstep s

/-! ## What the single commands do -/

section Commands

variable {α β : Type} {s s' : LState}

theorem exec_bind_done {p : K α} {f : α → K β} {b : β} : exec (p >>= f) s = .done b s' ↔
      ∃ a s1, exec p s = .done a s1 ∧ exec (f a) s1 = .done b s' :=
  run_bind_done

@[simp] theorem exec_pure_done {a b : α} : exec (pure a : K α) s = .done b s' ↔ b = a ∧ s' = s := by
  constructor
  · intro h; cases h; exact ⟨rfl, rfl⟩
  · rintro ⟨rfl, rfl⟩; rfl

@[simp] theorem exec_bread_done {b : Nat} {d : Block} :
    exec (bread b) s = .done d s' ↔ b < FSSIZE ∧ d = s.view b ∧ s' = s := by
  show (cmd (Cmd.bread b)).run lstep s = .done d s' ↔ _
  rw [run_single]
  show (if b < FSSIZE then Out.done (s.view b) s
    else Out.stop (Stop.panic "incorrect blockno") s) = .done d s' ↔ _
  split_ifs with hb
  · constructor
    · intro h; cases h; exact ⟨hb, rfl, rfl⟩
    · rintro ⟨_, rfl, rfl⟩; rfl
  · exact ⟨nofun, fun h => absurd h.1 hb⟩

theorem exec_logWrite (b : Nat) : exec (logWrite b) s =
      if LOGSIZE ≤ s.lh.length ∨ (s.logSize : Int) - 1 ≤ s.lh.length then
        .stop (.panic "too big a transaction") s
      else if s.outstanding < 1 then .stop (.panic "log_write outside of trans") s
      else .done () { s with lh := absorb s.lh b } := by
  show (cmd (Cmd.logWrite b)).run lstep s = _
  rw [run_single]
  rfl

theorem exec_logWrite_done {b : Nat} {u : Unit} (h : exec (logWrite b) s = .done u s') :
    s' = { s with lh := absorb s.lh b } := by
  rw [exec_logWrite] at h
  split at h
  · cases h
  · by_cases h2 : s.outstanding < 1
    · rw [if_pos h2] at h; cases h
    · rw [if_neg h2] at h; cases h; rfl

@[simp] theorem exec_kpanic_done {msg : String} {a : α} : exec (kpanic msg) s = .done a s' ↔ False :=
  ⟨nofun, False.elim⟩

theorem exec_beginOp (h : ¬ (LOGSIZE : Int) < s.lh.length + (s.outstanding + 1) * MAXOPBLOCKS) :
    exec beginOp s = .done () { s with outstanding := s.outstanding + 1 } := by
  show (cmd Cmd.beginOp).run lstep s = _
  rw [run_single]
  exact if_neg h

theorem exec_beginOp_done {u : Unit} (h : exec beginOp s = .done u s') :
    s' = { s with outstanding := s.outstanding + 1 } := by
  have h' : (if (LOGSIZE : Int) < s.lh.length + (s.outstanding + 1) * MAXOPBLOCKS then
      Out.stop Stop.blocked s
      else Out.done () { s with outstanding := s.outstanding + 1 }) = Out.done u s' := by
    rw [← h]
    show _ = (cmd Cmd.beginOp).run lstep s
    rw [run_single]
    rfl
  split_ifs at h' with hb
  cases h'; rfl

theorem exec_endOp (s : LState) : exec endOp s = .done () (if s.outstanding - 1 = 0
      then { s with outstanding := 0, lh := [] }
      else { s with outstanding := s.outstanding - 1 }) := by
  show (cmd Cmd.endOp).run lstep s = _
  rw [run_single]
  show (if s.outstanding - 1 = 0 then Out.done () { s with outstanding := 0, lh := [] }
      else Out.done () { s with outstanding := s.outstanding - 1 }) = _
  split_ifs with h
  · rfl
  · rfl

/-- What the machine itself can stop for. -/
def machineStops : List Stop :=
  [.blocked, .panic "incorrect blockno", .panic "too big a transaction", .panic "log_write outside of trans"]

/-- A command that stops a run is `stop`, or it stops for a reason of the machine. -/
theorem lstep_stop {c : Cmd} {e : Stop} (h : lstep c s = .stop e s') : c = .stop e ∨ e ∈ machineStops := by
  cases c with
  | stop e' =>
    cases h
    exact .inl rfl
  | bread b =>
    simp only [lstep] at h
    split_ifs at h
    cases h; exact .inr (by decide)
  | logWrite b =>
    simp only [lstep] at h
    split at h
    · cases h; exact .inr (by decide)
    · split_ifs at h
      cases h; exact .inr (by decide)
  | beginOp =>
    simp only [lstep] at h
    split_ifs at h
    cases h; exact .inr (by decide)
  | endOp =>
    simp only [lstep] at h
    split at h <;> exact nomatch h
  | _ => cases h

end Commands

/-! ## The log list -/

theorem mem_absorb {lh : List Nat} {b c : Nat} : c ∈ absorb lh b ↔ c ∈ lh ∨ c = b := by
  show c ∈ (if b ∈ lh then lh else lh ++ [b]) ↔ _
  split_ifs with hb
  · constructor
    · exact Or.inl
    · rintro (h | rfl)
      · exact h
      · exact hb
  · rw [mem_append, mem_singleton]

/-- The absorption loop keeps the list free of duplicates. -/
theorem nodup_absorb {lh : List Nat} (h : lh.Nodup) (b : Nat) : (absorb lh b).Nodup := by
  show (if b ∈ lh then lh else lh ++ [b]).Nodup
  split_ifs with hb
  · exact h
  · rw [nodup_append]
    refine ⟨h, by simp, ?_⟩
    intro x hx y hy
    rw [mem_singleton] at hy
    subst hy
    rintro rfl
    exact hb hx

end Xv6Kernel
