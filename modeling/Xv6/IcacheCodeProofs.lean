import Xv6.InterleaveProofs
import Xv6.LogicalDiskProofs

/-!
# The inode cache of `fs.c` under any number of processes

Processes call `iget`, `idup`, `ilock`, `iunlock`, `iput` and `ialloc`, and change inodes they have
locked. A step is one round of a loop, or what a process does between two accesses to
`icache.lock` or to a disk block: a disk inode is read or written in one step, since the buffer it
is in is busy meanwhile. A sleeper in `ilock` goes on when it gets `icache.lock` again. A `panic`
stops the process that calls it.

The protocol is the one of the comment at the top of the file. A process uses a slot only while it
has a reference to it; it may hand a reference to another process (an open file is closed by
whoever is the last). It changes an inode only while it has it locked, does not change its type,
and copies it to disk (`iupdate`) before it unlocks it; it unlocks it before it puts it.

`iget` may be called with any number. Most come from a directory and are of inodes with a link, or of
an inode the caller has a reference to (`.`), or from `ialloc`; the exception is the `..` of a directory
that is itself removed, which outlives the directory it names. `known` tells the two apart.

Recorded beside the code's own data: how many references each process has to a slot, who has it
locked, and whether it was changed since it was last copied to disk.
-/

namespace Xv6Icache

open Interleave Xv6Disk Xv6Kernel Function

/-- `dev` and `inum` -/
abbrev Key := Nat × Nat

/-- A slot of `icache.inode` -/
abbrev I := Fin NINODE

/-- `struct inode`: `din` is what it copies from the disk. -/
structure Slot where
  key : Key
  ref : Nat
  busy : Bool
  valid : Bool
  din : Dinode

/-- Where a process is. -/
inductive Pc where
  | out
  /-- `ialloc` at inode `inum` of device `dev` -/
  | aScan (dev : Nat) (type : Int16) (inum : Nat)
  /-- `iget`; `fresh` when it is called by `ialloc` -/
  | gAcq (k : Key) (fresh : Bool)
  | gScan (k : Key) (fresh : Bool) (i : Nat) (empty : Option I)
  /-- `idup` -/
  | dAcq (ip : I)
  | dInc (ip : I)
  /-- `ilock` -/
  | lAcq (ip : I)
  | lTest (ip : I)
  | lRel (ip : I)
  | lRead (ip : I)
  /-- `iunlock` -/
  | uAcq (ip : I)
  | uClear (ip : I)
  /-- `iput`: the test, the freeing of the inode, the end -/
  | pAcq (ip : I)
  | pTest (ip : I)
  | pRel (ip : I)
  | pTrunc (ip : I)
  | pTruncUpdate (ip : I)
  | pType (ip : I)
  | pUpdate (ip : I)
  | pReacq (ip : I)
  | pClear (ip : I)
  | pDec (ip : I)
  /-- about to give up `icache.lock` and return -/
  | rel
deriving DecidableEq

/-- What a process does next, where it has a choice. -/
inductive Act (P : Type) where
  | go
  /-- `sys_time()` returned `m` -/
  | time (m : UInt32)
  | iget (k : Key)
  | ialloc (dev : Nat) (type : Int16)
  | idup (ip : I)
  | ilock (ip : I)
  | iunlock (ip : I)
  | iput (ip : I)
  | modify (ip : I) (d : Dinode)
  | iupdate (ip : I)
  | give (q : P) (ip : I)

/-- `icache`, the disk inodes as seen through the buffer cache, the processes, and what is
    recorded. -/
structure St (P : Type) where
  lock : Option P
  slot : I → Slot
  disk : Key → Dinode
  ninodes : Nat
  pc : P → Pc
  refs : P → I → Nat
  held : P → I → Bool
  stale : I → Bool

variable {P : Type}

/-- The cache after boot: no references. -/
def init (P : Type) (disk : Key → Dinode) (ninodes : Nat) (slot : I → Slot) : St P where
  lock := none
  slot := fun ip => { slot ip with ref := 0, busy := false, valid := false }
  disk := disk
  ninodes := ninodes
  pc := fun _ => .out
  refs := fun _ _ => 0
  held := fun _ _ => false
  stale := fun _ => false

/-- Change one slot. -/
def St.setSlot (s : St P) (ip : I) (x : Slot) : St P := { s with slot := update s.slot ip x }

/-- `iupdate` -/
def St.update (s : St P) (ip : I) : St P :=
  { s with disk := Function.update s.disk (s.slot ip).key (s.slot ip).din }

/-- What `ialloc` writes over a free inode. -/
def St.alloc (s : St P) (k : Key) (type : Int16) (mtime : UInt32) : St P :=
  { s with disk := Function.update s.disk k { Dinode.zero with type := type, mtime := mtime } }

/-- What `itrunc` leaves of an inode. -/
def trunc (d : Dinode) : Dinode := { d with addrs := fun _ => 0, size := 0 }

variable [DecidableEq P]

/-- The process goes on to `c`. -/
def St.to (s : St P) (p : P) (c : Pc) : St P := { s with pc := Function.update s.pc p c }

/-- The process has `n` references to the slot. -/
def St.count (s : St P) (p : P) (ip : I) (n : Nat) : St P :=
  { s with refs := Function.update s.refs p (Function.update (s.refs p) ip n) }

/-- The process has the slot locked, or no longer. -/
def St.hold (s : St P) (p : P) (ip : I) (h : Bool) : St P :=
  { s with held := Function.update s.held p (Function.update (s.held p) ip h) }

def acquire (s : St P) (p : P) (c : Pc) : Option (St P) :=
  if s.lock = none then some { s.to p c with lock := some p } else none

def release (s : St P) (p : P) (c : Pc) : Option (St P) := some { s.to p c with lock := none }

/-- An inode with a link, or one that the process has a reference to. -/
def Named (s : St P) (p : P) (k : Key) : Prop :=
  ((s.disk k).type ≠ 0 ∧ (s.disk k).nlink ≠ 0) ∨ ∃ ip, (s.slot ip).key = k ∧ 0 < s.refs p ip

instance (s : St P) (p : P) (k : Key) : Decidable (Named s p k) := inferInstanceAs (Decidable (_ ∨ _))

/-- A process in `iget` has a number from `ialloc`, or one of an inode that is `Named`. -/
def known (p : P) (s : St P) : Bool :=
  match s.pc p with
  | .gScan k f _ _ => f || decide (Named s p k)
  | _ => true

/-- One step of process `p`. -/
def step (p : P) (a : Act P) (s : St P) : Option (St P) :=
  match s.pc p, a with
  | .out, .iget k => some (s.to p (.gAcq k false))
  | .out, .ialloc dev type => if type ≠ 0 then some (s.to p (.aScan dev type 1)) else none
  | .out, .idup ip => if 0 < s.refs p ip then some (s.to p (.dAcq ip)) else none
  | .out, .ilock ip =>
    if 0 < s.refs p ip ∧ s.held p ip = false ∧ 1 ≤ (s.slot ip).ref then some (s.to p (.lAcq ip))
    else none
  | .out, .iunlock ip =>
    if s.held p ip = true ∧ s.stale ip = false ∧ (s.slot ip).busy = true ∧ 1 ≤ (s.slot ip).ref then
      some (s.to p (.uAcq ip))
    else none
  | .out, .iput ip =>
    if 0 < s.refs p ip ∧ s.held p ip = false then some (s.to p (.pAcq ip)) else none
  | .out, .modify ip d =>
    if s.held p ip = true ∧ d.type = (s.slot ip).din.type then
      some { s.setSlot ip { s.slot ip with din := d } with stale := update s.stale ip true }
    else none
  | .out, .iupdate ip =>
    if s.held p ip = true then
      some { s.update ip with stale := update s.stale ip false }
    else none
  | .out, .give q ip =>
    if 0 < s.refs p ip ∧ s.held p ip = false ∧ q ≠ p then
      some ((s.count p ip (s.refs p ip - 1)).count q ip (s.refs q ip + 1))
    else none
  | .aScan dev type inum, .time m =>
    if inum < s.ninodes then
      if (s.disk (dev, inum)).type = 0 then
        some ((s.alloc (dev, inum) type m).to p (.gAcq (dev, inum) true))
      else some (s.to p (.aScan dev type (inum + 1)))
    else none
  | .gAcq k f, .go => acquire s p (.gScan k f 0 none)
  | .gScan k f i e, .go =>
    if h : i < NINODE then
      if 0 < (s.slot ⟨i, h⟩).ref ∧ (s.slot ⟨i, h⟩).key = k then
        some (((s.setSlot ⟨i, h⟩ { s.slot ⟨i, h⟩ with ref := (s.slot ⟨i, h⟩).ref + 1 }).count
          p ⟨i, h⟩ (s.refs p ⟨i, h⟩ + 1)).to p .rel)
      else if e = none ∧ (s.slot ⟨i, h⟩).ref = 0 then
        some (s.to p (.gScan k f (i + 1) (some ⟨i, h⟩)))
      else some (s.to p (.gScan k f (i + 1) e))
    else
      match e with
      | none => none
      | some ip =>
        some (((s.setSlot ip { s.slot ip with key := k, ref := 1, busy := false, valid := false }).count
          p ip (s.refs p ip + 1)).to p .rel)
  | .dAcq ip, .go => acquire s p (.dInc ip)
  | .dInc ip, .go =>
    some (((s.setSlot ip { s.slot ip with ref := (s.slot ip).ref + 1 }).count
      p ip (s.refs p ip + 1)).to p .rel)
  | .lAcq ip, .go => acquire s p (.lTest ip)
  | .lTest ip, .go =>
    if (s.slot ip).busy = true then release s p (.lAcq ip)
    else some (((s.setSlot ip { s.slot ip with busy := true }).hold p ip true).to p (.lRel ip))
  | .lRel ip, .go => release s p (.lRead ip)
  | .lRead ip, .go =>
    if (s.slot ip).valid = true then some (s.to p .out)
    else if (s.disk (s.slot ip).key).type = 0 then none
    else some ((s.setSlot ip { s.slot ip with valid := true, din := s.disk (s.slot ip).key }).to p .out)
  | .uAcq ip, .go => acquire s p (.uClear ip)
  | .uClear ip, .go =>
    some (((s.setSlot ip { s.slot ip with busy := false }).hold p ip false).to p .rel)
  | .pAcq ip, .go => acquire s p (.pTest ip)
  | .pTest ip, .go =>
    if (s.slot ip).ref = 1 ∧ (s.slot ip).valid = true ∧ (s.slot ip).din.nlink = 0 then
      if (s.slot ip).busy = true then none
      else some (((s.setSlot ip { s.slot ip with busy := true }).hold p ip true).to p (.pRel ip))
    else some (s.to p (.pDec ip))
  | .pRel ip, .go => release s p (.pTrunc ip)
  | .pTrunc ip, .go =>
    some ((s.setSlot ip { s.slot ip with din := trunc (s.slot ip).din }).to p (.pTruncUpdate ip))
  | .pTruncUpdate ip, .go => some ((s.update ip).to p (.pType ip))
  | .pType ip, .go =>
    some ((s.setSlot ip { s.slot ip with din := { (s.slot ip).din with type := 0 } }).to
      p (.pUpdate ip))
  | .pUpdate ip, .go => some ((s.update ip).to p (.pReacq ip))
  | .pReacq ip, .go => acquire s p (.pClear ip)
  | .pClear ip, .go =>
    some (((s.setSlot ip { s.slot ip with busy := false, valid := false }).hold p ip false).to
      p (.pDec ip))
  | .pDec ip, .go =>
    some (((s.setSlot ip { s.slot ip with ref := (s.slot ip).ref - 1 }).count
      p ip (s.refs p ip - 1)).to p .rel)
  | .rel, .go => release s p .out
  | _, _ => none

/-- Some process takes a step that `ok` allows. -/
def Step (ok : P → St P → Bool) (s s' : St P) : Prop := ∃ p a, ok p s = true ∧ step p a s = some s'

/-- A state that some interleaving leads to. -/
def Reach (ok : P → St P → Bool) (s : St P) : Prop :=
  ∃ disk ninodes slot, Relation.ReflTransGen (Step ok) (init P disk ninodes slot) s

/-! ## Regions of the code -/

/-- The process holds `icache.lock`. -/
@[simp] def Pc.locked : Pc → Bool
  | .gScan _ _ _ _ | .dInc _ | .lTest _ | .lRel _ | .uClear _ | .pTest _ | .pRel _ | .pClear _
  | .pDec _ | .rel => true
  | _ => false

/-- What a process at some point of the code is doing, and to which slot. -/
structure Region where
  /-- the call in progress works on the slot, -/
  cur : Option I := none
  /-- and has it locked -/
  holding : Option I := none
  /-- `iput` works on the slot and does not have it locked -/
  putting : Option I := none
  /-- `iput` frees the slot's inode, -/
  freeing : Option I := none
  /-- which is not yet free on the disk, -/
  frees : Option I := none
  /-- and still has its type in memory -/
  typed : Option I := none
  /-- `iput` will give up its reference without another look at the slot -/
  gives : Option I := none
  /-- `ialloc` has allocated this inode and has no reference to it yet -/
  fresh : Option Key := none
  /-- `ialloc` looks for an inode to give this type -/
  wants : Option Int16 := none

def Pc.region : Pc → Region
  | .aScan _ type _ => { wants := some type }
  | .gAcq k f | .gScan k f _ _ => { fresh := if f = true then some k else none }
  | .dAcq ip | .dInc ip | .lAcq ip | .lTest ip => { cur := some ip }
  | .lRel ip | .lRead ip | .uAcq ip | .uClear ip => { cur := some ip, holding := some ip }
  | .pAcq ip | .pTest ip => { cur := some ip, putting := some ip }
  | .pRel ip | .pTrunc ip | .pTruncUpdate ip | .pType ip =>
    { cur := some ip, holding := some ip, freeing := some ip, frees := some ip, typed := some ip }
  | .pUpdate ip =>
    { cur := some ip, holding := some ip, freeing := some ip, frees := some ip }
  | .pReacq ip | .pClear ip =>
    { cur := some ip, holding := some ip, freeing := some ip, gives := some ip }
  | .pDec ip => { cur := some ip, putting := some ip, gives := some ip }
  | _ => { }

section Regions

variable {c : Pc} {ip : I}

@[grind →] theorem cur_of_holding (h : c.region.holding = some ip) : c.region.cur = some ip := by
  unfold Pc.region at *; split at h <;> simp_all

@[grind →] theorem cur_of_gives (h : c.region.gives = some ip) : c.region.cur = some ip := by
  unfold Pc.region at *; split at h <;> simp_all

@[grind →] theorem holding_of_freeing (h : c.region.freeing = some ip) : c.region.holding = some ip := by
  unfold Pc.region at *; split at h <;> simp_all

@[grind →] theorem freeing_of_frees (h : c.region.frees = some ip) : c.region.freeing = some ip := by
  unfold Pc.region at *; split at h <;> simp_all

@[grind →] theorem frees_of_typed (h : c.region.typed = some ip) : c.region.frees = some ip := by
  unfold Pc.region at *; split at h <;> simp_all

@[grind →] theorem gives_of_frees (h : c.region.frees = some ip) : c.region.gives = none := by
  unfold Pc.region at *; split at h <;> simp_all

end Regions

end Xv6Icache
