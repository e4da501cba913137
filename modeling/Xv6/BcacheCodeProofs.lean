import Xv6.DiskFormatProofs
import Xv6.InterleaveProofs
import Xv6.LinkedRingProofs

/-!
# `bio.c` and `ide.c` — the buffer cache under any number of processes

Processes call `bread`, store into the buffers they got, call `log_write` or `bwrite`, and
`brelse`; `commit` is made of the same calls (`write_log`, `write_head` and `install_trans` read
two buffers, store into one and write it). A process may hold several buffers. Beside the
processes there is the interrupt handler `ideintr`, which may run at any time.

A step is one round of a loop of `bget`, or what a process does between taking and giving up
`bcache.lock` or `idelock` elsewhere. `sleep` gives the lock up and the sleeper goes on when it
gets the lock again: what is proved here does not depend on when it is woken. A `panic` stops the
process that calls it. The drives report no errors, and are those of devices 0 and 1, which
`b->dev & 1` tells apart.

Three things are recorded that the code does not store: which buffers a process has got and not
released, which of them it has stored into without calling `log_write` or `bwrite` yet, and the
data last stored to each block.
-/

namespace Xv6Bcache

open Interleave LinkedRing Xv6Disk Function

/-- `dev` and `blockno` -/
abbrev Key := UInt32 × UInt32

/-- A buffer of `bcache.buf` -/
abbrev B := Fin NBUF

/-- `struct buf` without its links -/
structure Buf (α : Type) where
  busy : Bool
  valid : Bool
  dirty : Bool
  dev : UInt32
  blockno : UInt32
  data : α

def Buf.key {α : Type} (x : Buf α) : Key := (x.dev, x.blockno)

/-- The devices in use. -/
def inUse (dev : UInt32) : Prop := dev = 0 ∨ dev = 1

instance (dev : UInt32) : Decidable (inUse dev) := inferInstanceAs (Decidable (_ ∨ _))

/-- Where the controller finds a block: the drive is `b->dev & 1`. -/
def drive (k : Key) : Key := (k.1 &&& 1, k.2)

/-- Where a process is. `r` is the block that the `bread` in progress asked for. -/
inductive Pc where
  | out
  /-- `bget`: at `loop`, in the first loop, in the second loop, about to return `b` -/
  | gAcq (k : Key)
  | gScan (k : Key) (x : Option B)
  | gFree (k : Key) (x : Option B)
  | gRel (k : Key) (b : B)
  /-- `bread` -/
  | rTest (k : Key) (b : B)
  | rRet (k : Key) (b : B)
  /-- `iderw` -/
  | dCheck (b : B) (r : Option Key)
  | dAcq (b : B) (r : Option Key)
  | dAppend (b : B) (r : Option Key)
  | dWait (b : B) (r : Option Key)
  | dReacq (b : B) (r : Option Key)
  | dRel (b : B) (r : Option Key)
  /-- `brelse` -/
  | lAcq (b : B)
  | lLink (b : B)
  | lBusy (b : B)
  | lRel
deriving DecidableEq

/-- Where the interrupt handler is. -/
inductive Handler where
  | idle
  | serve
  | rel
deriving DecidableEq

/-- What a process does next, where it has a choice. -/
inductive Act (α : Type) where
  | go
  | bread (k : Key)
  | store (b : B) (v : α)
  | logWrite (b : B)
  | bwrite (b : B)
  | brelse (b : B)

/-- `bcache`, `ide.c`'s variables, the drives, the processes, and what is recorded. The interrupt
    handler is the agent `none`. -/
structure St (P α : Type) where
  lock : Option P
  idelock : Option (Option P)
  next : Option B → Option B
  prev : Option B → Option B
  buf : B → Buf α
  idequeue : List B
  havedisk1 : Bool
  disk : Key → α
  pc : P → Pc
  handler : Handler
  held : P → B → Bool
  pending : B → Bool
  last : Key → α

variable {P α : Type}

/-- `binit`, with the buffers as they are in zeroed memory -/
def init (P : Type) (disk : Key → α) (data : B → α) (havedisk1 : Bool) : St P α :=
  let links := (List.finRange NBUF).foldl (fun s b => push b s) (fun _ => none, fun _ => none)
  { lock := none
    idelock := none
    next := links.1
    prev := links.2
    buf := fun b => ⟨false, false, false, -1, 0, data b⟩
    idequeue := []
    havedisk1 := havedisk1
    disk := disk
    pc := fun _ => .out
    handler := .idle
    held := fun _ _ => false
    pending := fun _ => false
    last := fun k => disk (drive k) }

/-- `idestart`: the data of a dirty buffer goes to the drive. -/
def idestart (s : St P α) (b : B) : Option (Key → α) :=
  if FSSIZE ≤ (s.buf b).blockno.toNat then none
  else if (s.buf b).dirty = true then
    some (update s.disk (drive (s.buf b).key) (s.buf b).data)
  else some s.disk

/-- Change one buffer. -/
def St.setBuf (s : St P α) (b : B) (x : Buf α) : St P α := { s with buf := update s.buf b x }

/-- What `ideintr` does with the first buffer of the queue. -/
def served (s : St P α) (b : B) : Buf α :=
  { s.buf b with
    data := if (s.buf b).dirty = true then (s.buf b).data else s.disk (drive (s.buf b).key)
    valid := true
    dirty := false }

/-- A step of `ideintr`. -/
def intr (s : St P α) : Option (St P α) :=
  match s.handler with
  | .idle =>
    if s.idelock = none then some { s with idelock := some none, handler := .serve } else none
  | .serve =>
    match s.idequeue with
    | [] => some { s with handler := .rel }
    | b :: q =>
      let s1 := { s.setBuf b (served s b) with idequeue := q, handler := .rel }
      match q with
      | [] => some s1
      | c :: _ => (idestart s1 c).map fun d => { s1 with disk := d }
  | .rel => some { s with idelock := none, handler := .idle }

variable [DecidableEq P]

/-- The process goes on to `c`. -/
def St.to (s : St P α) (p : P) (c : Pc) : St P α := { s with pc := update s.pc p c }

/-- `b` becomes a buffer that `p` has got, or no longer has. -/
def St.hold (s : St P α) (p : P) (b : B) (h : Bool) : St P α :=
  { s with held := update s.held p (update (s.held p) b h) }

def acquire (s : St P α) (p : P) (c : Pc) : Option (St P α) :=
  if s.lock = none then some { s.to p c with lock := some p } else none

def acquireIde (s : St P α) (p : P) (c : Pc) : Option (St P α) :=
  if s.idelock = none then some { s.to p c with idelock := some (some p) } else none

/-- The end of `iderw`, in `bread` or in `bwrite`. -/
def afterIde (b : B) : Option Key → Pc
  | some k => .rRet k b
  | none => .out

/-- One step of process `p`. -/
def step (p : P) (a : Act α) (s : St P α) : Option (St P α) :=
  match s.pc p, a with
  | .out, .bread k => if inUse k.1 then some (s.to p (.gAcq k)) else none
  | .out, .store b v =>
    if s.held p b = true then
      some { s.setBuf b { s.buf b with data := v } with
        last := update s.last (s.buf b).key v
        pending := update s.pending b true }
    else none
  | .out, .logWrite b =>
    if s.held p b = true then
      some { s.setBuf b { s.buf b with dirty := true } with
        pending := update s.pending b false }
    else none
  | .out, .bwrite b =>
    if s.held p b = true ∧ (s.buf b).busy = true then
      some { (s.setBuf b { s.buf b with dirty := true }).to p (.dCheck b none) with
        pending := update s.pending b false }
    else none
  | .out, .brelse b =>
    if s.held p b = true ∧ s.pending b = false ∧ (s.buf b).busy = true then
      some (s.to p (.lAcq b))
    else none
  | .gAcq k, .go => acquire s p (.gScan k (s.next none))
  | .gScan k (some b), .go =>
    if (s.buf b).key = k then
      if (s.buf b).busy = false then
        some (((s.setBuf b { s.buf b with busy := true }).hold p b true).to p (.gRel k b))
      else some { s.to p (.gAcq k) with lock := none }
    else some (s.to p (.gScan k (s.next (some b))))
  | .gScan k none, .go => some (s.to p (.gFree k (s.prev none)))
  | .gFree k (some b), .go =>
    if (s.buf b).busy = false ∧ (s.buf b).dirty = false then
      some (((s.setBuf b { s.buf b with
          dev := k.1, blockno := k.2, busy := true, valid := false, dirty := false }).hold
        p b true).to p (.gRel k b))
    else some (s.to p (.gFree k (s.prev (some b))))
  | .gRel k b, .go => some { s.to p (.rTest k b) with lock := none }
  | .rTest k b, .go =>
    some (s.to p (if (s.buf b).valid = true then .rRet k b else .dCheck b (some k)))
  | .rRet _ _, .go => some (s.to p .out)
  | .dCheck b r, .go =>
    if (s.buf b).busy = true ∧ ¬ ((s.buf b).valid = true ∧ (s.buf b).dirty = false) ∧
        ((s.buf b).dev = 0 ∨ s.havedisk1 = true) then some (s.to p (.dAcq b r))
    else none
  | .dAcq b r, .go => acquireIde s p (.dAppend b r)
  | .dAppend b r, .go =>
    match s.idequeue with
    | [] => (idestart s b).map fun d => { s.to p (.dWait b r) with idequeue := [b], disk := d }
    | q => some { s.to p (.dWait b r) with idequeue := q ++ [b] }
  | .dWait b r, .go =>
    if (s.buf b).valid = true ∧ (s.buf b).dirty = false then some (s.to p (.dRel b r))
    else some { s.to p (.dReacq b r) with idelock := none }
  | .dReacq b r, .go => acquireIde s p (.dWait b r)
  | .dRel b r, .go => some { s.to p (afterIde b r) with idelock := none }
  | .lAcq b, .go => acquire s p (.lLink b)
  | .lLink b, .go =>
    let links := push b (unlink b (s.next, s.prev))
    some { s.to p (.lBusy b) with next := links.1, prev := links.2 }
  | .lBusy b, .go =>
    some (((s.setBuf b { s.buf b with busy := false }).hold p b false).to p .lRel)
  | .lRel, .go => some { s.to p .out with lock := none }
  | _, _ => none

/-- A process or the interrupt handler takes a step. -/
def Step (s s' : St P α) : Prop := intr s = some s' ∨ ∃ p a, step p a s = some s'

/-- A state that some interleaving leads to. -/
def Reach (s : St P α) : Prop :=
  ∃ disk data havedisk1, Relation.ReflTransGen Step (init P disk data havedisk1) s

/-! ## Regions of the code -/

/-- The process holds `bcache.lock`. -/
@[simp] def Pc.locked : Pc → Bool
  | .lRel | .lBusy _ | .lLink _ | .gScan _ _ | .gFree _ _ | .gRel _ _ => true
  | _ => false

/-- The process holds `idelock`. -/
@[simp] def Pc.ideLocked : Pc → Bool
  | .dAppend _ _ | .dWait _ _ | .dRel _ _ => true
  | _ => false

/-- The buffer that the call in progress works on. -/
@[simp] def Pc.cur : Pc → Option B
  | .gRel _ b | .rTest _ b | .rRet _ b | .dCheck b _ | .dAcq b _ | .dAppend b _ | .dWait b _
  | .dReacq b _ | .dRel b _ | .lAcq b | .lLink b | .lBusy b => some b
  | _ => none

/-- The block that the `bread` in progress asked for. -/
@[simp] def Pc.want : Pc → Option Key
  | .gAcq k | .gScan k _ | .gFree k _ | .gRel k _ | .rTest k _ | .rRet k _ => some k
  | .dCheck _ r | .dAcq _ r | .dAppend _ r | .dWait _ r | .dReacq _ r | .dRel _ r => r
  | _ => none

/-- The buffer whose data may not have been read yet. -/
@[simp] def Pc.loads : Pc → Option B
  | .gRel _ b | .rTest _ b | .dCheck b _ | .dAcq b _ | .dAppend b _ | .dWait b _ | .dReacq b _ =>
    some b
  | _ => none

/-- The buffer that is about to be put into the queue. -/
@[simp] def Pc.asks : Pc → Option B
  | .dAcq b _ | .dAppend b _ => some b
  | _ => none

/-- The buffer whose request the process waits for. -/
@[simp] def Pc.waits : Pc → Option B
  | .dWait b _ | .dReacq b _ => some b
  | _ => none

def Handler.ideLocked : Handler → Bool
  | .serve | .rel => true
  | .idle => false

end Xv6Bcache
