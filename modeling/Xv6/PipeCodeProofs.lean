import Xv6.InterleaveProofs
import Xv6.RingBufferProofs

/-!
# `pipe.c` — writers, readers and closers of one pipe

Any number of processes call `pipewrite`, `piperead`, `pipeclose` and `kill`, each as often as
it likes. A step of the system is a step of one process between two accesses to shared memory:
taking or giving up the pipe's lock or `ptable.lock`, one test, or one byte stored or copied.
`sleep` takes `ptable.lock` before it gives up the pipe's lock and `wakeup` runs under
`ptable.lock`; both are modelled lock by lock. A sleeper that has been woken takes the pipe's
lock again and repeats its test.

The buffer of a `pipewrite` is the list of its `n` bytes (a negative `n` makes no round, as an
empty buffer does). Three things are recorded that the code does not store: the bytes stored,
with the process that stored them, the bytes delivered, and for each process the bytes that its
finished calls of `pipewrite` stored.
-/

namespace Xv6Pipe

open Interleave RingBuffer Function

def PIPESIZE : Nat := 512

/-- The fields of `struct pipe` that its lock protects. -/
structure Pipe where
  ring : RingBuffer.Ring UInt8
  readopen : Bool
  writeopen : Bool

/-- `p->nwrite == p->nread + PIPESIZE` -/
def Pipe.full (x : Pipe) : Prop := x.ring.nwrite = x.ring.nread + UInt32.ofNat PIPESIZE

/-- `p->nread == p->nwrite` -/
def Pipe.empty (x : Pipe) : Prop := x.ring.nread = x.ring.nwrite

instance (x : Pipe) : Decidable x.full := inferInstanceAs (Decidable (_ = _))
instance (x : Pipe) : Decidable x.empty := inferInstanceAs (Decidable (_ = _))

/-- Where a process is in the code of the pipe. -/
inductive Pc (P : Type) where
  | out
  /-- `pipewrite` of `buf`, with `i` bytes stored -/
  | wAcq (buf : List UInt8)
  | wFor (buf : List UInt8) (i : Nat)
  | wFull (buf : List UInt8) (i : Nat)
  | wCheck (buf : List UInt8) (i : Nat)
  | wFail (buf : List UInt8) (i : Nat)
  | wWakeAcq (buf : List UInt8) (i : Nat)
  | wWake (buf : List UInt8) (i : Nat)
  | wSleepAcq (buf : List UInt8) (i : Nat)
  | wSleepRel (buf : List UInt8) (i : Nat)
  | wSleepSet (buf : List UInt8) (i : Nat)
  /-- sleeping on `&p->nwrite` -/
  | wSleeping (buf : List UInt8) (i : Nat)
  | wReacq (buf : List UInt8) (i : Nat)
  | wStore (buf : List UInt8) (i : Nat)
  | wEndAcq (buf : List UInt8)
  | wEndWake (buf : List UInt8)
  | wRel (buf : List UInt8)
  /-- `piperead` of `n` bytes, with `i` bytes copied -/
  | rAcq (n : Nat)
  | rTest (n : Nat)
  | rKilled (n : Nat)
  | rFail (n : Nat)
  | rSleepAcq (n : Nat)
  | rSleepRel (n : Nat)
  | rSleepSet (n : Nat)
  /-- sleeping on `&p->nread` -/
  | rSleeping (n : Nat)
  | rFor (n i : Nat)
  | rCopy (n i : Nat)
  | rWakeAcq (n i : Nat)
  | rWake (n i : Nat)
  /-- about to give up the lock and return `i` -/
  | rRel (n i : Nat)
  /-- `pipeclose` -/
  | cAcq (writable : Bool)
  | cSet (writable : Bool)
  | cWakeAcq (writable : Bool)
  | cWake (writable : Bool)
  | cTest
  | cRel
  | cFree
  /-- `kill` -/
  | kAcq (t : P)
  | kSet (t : P)
deriving DecidableEq

/-- What a process does next; outside of the code it has a choice. -/
inductive Act (P : Type) where
  | go
  | write (buf : List UInt8)
  | read (n : Nat)
  | close (writable : Bool)
  | kill (t : P)
deriving DecidableEq

/-- The pipe's lock, `ptable.lock`, the pipe, the processes, and what is recorded. -/
structure St (P : Type) where
  lock : Option P
  plock : Option P
  pipe : Pipe
  freed : Bool
  killed : P → Bool
  pc : P → Pc P
  stored : List (P × UInt8)
  delivered : List (P × UInt8)
  past : P → List UInt8

variable {P : Type}

/-- After `pipealloc`; the page holds whatever it held. -/
def init (P : Type) (data : Nat → UInt8) : St P where
  lock := none
  plock := none
  pipe := ⟨⟨data, 0, 0⟩, true, true⟩
  freed := false
  killed := fun _ => false
  pc := fun _ => .out
  stored := []
  delivered := []
  past := fun _ => []

/-- `wakeup(&p->nread)` on the control point of a process. -/
def awakeR : Pc P → Pc P
  | .rSleeping n => .rAcq n
  | c => c

/-- `wakeup(&p->nwrite)` on the control point of a process. -/
def awakeW : Pc P → Pc P
  | .wSleeping buf i => .wReacq buf i
  | c => c

/-- What `kill` does to a sleeper. -/
def rouse (c : Pc P) : Pc P := awakeR (awakeW c)

/-- Which sleepers `pipeclose` wakes. -/
def awakeC (writable : Bool) (c : Pc P) : Pc P := if writable then awakeR c else awakeW c

variable [DecidableEq P]

/-- The process goes on to `c`. -/
def St.to (s : St P) (p : P) (c : Pc P) : St P := { s with pc := update s.pc p c }

def acquire (s : St P) (p : P) (c : Pc P) : Option (St P) :=
  if s.lock = none then some { s.to p c with lock := some p } else none

def release (s : St P) (p : P) (c : Pc P) : Option (St P) := some { s.to p c with lock := none }

def acquirePtable (s : St P) (p : P) (c : Pc P) : Option (St P) :=
  if s.plock = none then some { s.to p c with plock := some p } else none

/-- `wakeup1`, and the release of `ptable.lock` after it. -/
def wakeup (f : Pc P → Pc P) (s : St P) (p : P) (c : Pc P) : Option (St P) :=
  some { s with pc := update (fun q => f (s.pc q)) p c, plock := none }

/-- `pipewrite` returns, with `i` bytes stored. -/
def leaveWrite (s : St P) (p : P) (buf : List UInt8) (i : Nat) : Option (St P) :=
  some { s.to p .out with
    lock := none, past := update s.past p (s.past p ++ buf.take i) }

/-- One step of process `p`. -/
def step (p : P) (a : Act P) (s : St P) : Option (St P) :=
  match s.pc p, a with
  | .out, .write buf => some (s.to p (.wAcq buf))
  | .out, .read n => some (s.to p (.rAcq n))
  | .out, .close w => some (s.to p (.cAcq w))
  | .out, .kill t => some (s.to p (.kAcq t))
  | .wAcq buf, .go => acquire s p (.wFor buf 0)
  | .wFor buf i, .go => some (s.to p (if i < buf.length then .wFull buf i else .wEndAcq buf))
  | .wFull buf i, .go => some (s.to p (if s.pipe.full then .wCheck buf i else .wStore buf i))
  | .wCheck buf i, .go =>
    some (s.to p (if s.pipe.readopen = false ∨ s.killed p = true then .wFail buf i
      else .wWakeAcq buf i))
  | .wFail buf i, .go => leaveWrite s p buf i
  | .wWakeAcq buf i, .go => acquirePtable s p (.wWake buf i)
  | .wWake buf i, .go => wakeup awakeR s p (.wSleepAcq buf i)
  | .wSleepAcq buf i, .go => acquirePtable s p (.wSleepRel buf i)
  | .wSleepRel buf i, .go => release s p (.wSleepSet buf i)
  | .wSleepSet buf i, .go => some { s.to p (.wSleeping buf i) with plock := none }
  | .wReacq buf i, .go => acquire s p (.wFull buf i)
  | .wStore buf i, .go =>
    some { s.to p (.wFor buf (i + 1)) with
      pipe := { s.pipe with ring := s.pipe.ring.push PIPESIZE (buf.getD i 0) }
      stored := s.stored ++ [(p, buf.getD i 0)] }
  | .wEndAcq buf, .go => acquirePtable s p (.wEndWake buf)
  | .wEndWake buf, .go => wakeup awakeR s p (.wRel buf)
  | .wRel buf, .go => leaveWrite s p buf buf.length
  | .rAcq n, .go => acquire s p (.rTest n)
  | .rTest n, .go =>
    some (s.to p (if s.pipe.empty ∧ s.pipe.writeopen = true then .rKilled n else .rFor n 0))
  | .rKilled n, .go => some (s.to p (if s.killed p = true then .rFail n else .rSleepAcq n))
  | .rFail _, .go => release s p .out
  | .rSleepAcq n, .go => acquirePtable s p (.rSleepRel n)
  | .rSleepRel n, .go => release s p (.rSleepSet n)
  | .rSleepSet n, .go => some { s.to p (.rSleeping n) with plock := none }
  | .rFor n i, .go =>
    some (s.to p (if i < n ∧ ¬ s.pipe.empty then .rCopy n i else .rWakeAcq n i))
  | .rCopy n i, .go =>
    some { s.to p (.rFor n (i + 1)) with
      pipe := { s.pipe with ring := s.pipe.ring.pop }
      delivered := s.delivered ++ [(p, s.pipe.ring.front PIPESIZE)] }
  | .rWakeAcq n i, .go => acquirePtable s p (.rWake n i)
  | .rWake n i, .go => wakeup awakeW s p (.rRel n i)
  | .rRel _ _, .go => release s p .out
  | .cAcq w, .go => acquire s p (.cSet w)
  | .cSet w, .go =>
    some { s.to p (.cWakeAcq w) with
      pipe := if w then { s.pipe with writeopen := false } else { s.pipe with readopen := false } }
  | .cWakeAcq w, .go => acquirePtable s p (.cWake w)
  | .cWake w, .go => wakeup (awakeC w) s p .cTest
  | .cTest, .go =>
    some (s.to p (if s.pipe.readopen = false ∧ s.pipe.writeopen = false then .cFree else .cRel))
  | .cRel, .go => release s p .out
  | .cFree, .go => some { s.to p .out with lock := none, freed := true }
  | .kAcq t, .go => acquirePtable s p (.kSet t)
  | .kSet t, .go =>
    some { s with
      pc := update (update s.pc t (rouse (s.pc t))) p .out
      killed := update s.killed t true
      plock := none }
  | _, _ => none

/-- Some process takes a step. -/
def Step (s s' : St P) : Prop := ∃ p a, step p a s = some s'

/-- A state that some interleaving leads to. -/
def Reach (s : St P) : Prop := ∃ data, Relation.ReflTransGen Step (init P data) s

/-- Run a list of steps. -/
def runActs : List (P × Act P) → St P → Option (St P)
  | [], s => some s
  | (p, a) :: l, s => (step p a s).bind (runActs l)

theorem runActs_trans {l : List (P × Act P)} {s s' : St P} : runActs l s = some s' → Relation.ReflTransGen Step s s' :=
  Interleave.run_of_steps (fun _ => rfl) (fun _ _ _ => rfl) fun x _ _ h => ⟨x.1, x.2, h⟩

/-! ## Regions of the code -/

/-- What matters of a control point: the locks held there, whether the process is on its way to
    sleep as a reader or as a writer, and whether it will wake the readers or the writers
    before it gives up the pipe's lock. -/
structure Kind where
  lock : Bool := false
  plock : Bool := false
  rwait : Bool := false
  wwait : Bool := false
  owesR : Bool := false
  owesW : Bool := false
deriving DecidableEq

def Pc.kind : Pc P → Kind
  | .out | .wAcq _ | .wReacq _ _ | .rAcq _ | .cAcq _ | .kAcq _ => {}
  | .wFor _ _ | .wFull _ _ | .wCheck _ _ | .wStore _ _ | .wEndAcq _ => { lock := true, owesR := true }
  | .wEndWake _ => { lock := true, plock := true, owesR := true }
  | .wFail _ _ | .wRel _ => { lock := true }
  | .wWakeAcq _ _ => { lock := true, wwait := true, owesR := true }
  | .wWake _ _ => { lock := true, plock := true, wwait := true, owesR := true }
  | .wSleepAcq _ _ => { lock := true, wwait := true }
  | .wSleepRel _ _ => { lock := true, plock := true, wwait := true }
  | .wSleepSet _ _ => { plock := true, wwait := true }
  | .wSleeping _ _ => { wwait := true }
  | .rTest _ | .rKilled _ | .rFail _ | .rRel _ _ => { lock := true }
  | .rSleepAcq _ => { lock := true, rwait := true }
  | .rSleepRel _ => { lock := true, plock := true, rwait := true }
  | .rSleepSet _ => { plock := true, rwait := true }
  | .rSleeping _ => { rwait := true }
  | .rFor _ _ | .rCopy _ _ | .rWakeAcq _ _ => { lock := true, owesW := true }
  | .rWake _ _ => { lock := true, plock := true, owesW := true }
  | .cSet _ | .cTest | .cRel | .cFree => { lock := true }
  | .cWakeAcq w => { lock := true, owesR := w, owesW := !w }
  | .cWake w => { lock := true, plock := true, owesR := w, owesW := !w }
  | .kSet _ => { plock := true }

/-- What a process that holds the lock knows of the pipe at a control point. -/
def Fact : Pc P → Pipe → Prop
  | .wCheck _ _, x => x.full
  | .wStore _ _, x => ¬ x.full
  | .rKilled _, x => x.empty ∧ x.writeopen = true
  | .rFor _ i, x => i = 0 → ¬ (x.empty ∧ x.writeopen = true)
  | .rCopy _ _, x => ¬ x.empty
  | .rWakeAcq n i, x | .rWake n i, x | .rRel n i, x =>
    i = 0 → 0 < n → x.empty ∧ x.writeopen = false
  | _, _ => True

/-- The bytes that the `pipewrite` in progress has stored. -/
def Pc.progress : Pc P → List UInt8
  | .wFor buf i | .wFull buf i | .wCheck buf i | .wFail buf i | .wWakeAcq buf i | .wWake buf i
  | .wSleepAcq buf i | .wSleepRel buf i | .wSleepSet buf i | .wSleeping buf i | .wReacq buf i
  | .wStore buf i => buf.take i
  | .wEndAcq buf | .wEndWake buf | .wRel buf => buf
  | _ => []

/-- The byte that is stored next is one of the buffer. -/
def Pc.inside : Pc P → Prop
  | .wStore buf i => i < buf.length
  | .wFull buf i | .wCheck buf i | .wWakeAcq buf i | .wWake buf i | .wSleepAcq buf i
  | .wSleepRel buf i | .wSleepSet buf i | .wSleeping buf i | .wReacq buf i => i < buf.length
  | _ => True

omit [DecidableEq P] in
/-- A process without the lock knows nothing of the pipe. -/
theorem fact_of_unlocked {c : Pc P} (x : Pipe) (h : c.kind.lock = false) : Fact c x := by
  cases c <;> trivial

/-! ## What a step can do -/

/-- The effects that a step of `p` can have, in terms of the regions it moves between. -/
inductive Effect (p : P) (s : St P) : St P → Prop where
  /-- a move inside a region -/
  | move {c : Pc P} (hk : c.kind = (s.pc p).kind) (hf : Fact c s.pipe)
      (hp : c.progress = (s.pc p).progress) (hi : c.inside) : Effect p s (s.to p c)
  /-- `pipewrite` gives up on a full pipe -/
  | fail {buf : List UInt8} {i : Nat} (hpc : s.pc p = .wCheck buf i)
      (hc : s.pipe.readopen = false ∨ s.killed p = true) : Effect p s (s.to p (.wFail buf i))
  /-- a writer decides to sleep -/
  | waitW {buf : List UInt8} {i : Nat} (hpc : s.pc p = .wCheck buf i) (hfull : s.pipe.full)
      (hopen : s.pipe.readopen = true) (hi : i < buf.length) : Effect p s (s.to p (.wWakeAcq buf i))
  /-- a reader decides to sleep -/
  | waitR {n : Nat} (hpc : s.pc p = .rKilled n) (hempty : s.pipe.empty)
      (hopen : s.pipe.writeopen = true) : Effect p s (s.to p (.rSleepAcq n))
  /-- a reader starts to copy -/
  | take {n : Nat} (hpc : s.pc p = .rTest n) (hsome : ¬ (s.pipe.empty ∧ s.pipe.writeopen = true)) :
      Effect p s (s.to p (.rFor n 0))
  | acq {c : Pc P} {o : Bool} (hfree : s.lock = none) (hk0 : (s.pc p).kind = {})
      (hk : c.kind = { lock := true, owesR := o }) (hf : Fact c s.pipe)
      (hp : c.progress = (s.pc p).progress) (hi : c.inside) :
      Effect p s { s.to p c with lock := some p }
  | rel {c : Pc P} {f : Bool} (hl : (s.pc p).kind.lock = true)
      (hr : (s.pc p).kind.owesR = false) (hw : (s.pc p).kind.owesW = false)
      (hk : c.kind = { (s.pc p).kind with lock := false })
      (hp : c.progress = (s.pc p).progress) (hi : c.inside) :
      Effect p s { s.to p c with lock := none, freed := f }
  /-- `pipewrite` returns -/
  | leave {buf : List UInt8} {i : Nat} (hk : (s.pc p).kind = { lock := true })
      (hp : (s.pc p).progress = buf.take i) :
      Effect p s { s.to p .out with
        lock := none, past := update s.past p (s.past p ++ buf.take i) }
  | pacq {c : Pc P} (hfree : s.plock = none) (hk0 : (s.pc p).kind.plock = false)
      (hk : c.kind = { (s.pc p).kind with plock := true }) (hf : Fact c s.pipe)
      (hp : c.progress = (s.pc p).progress) (hi : c.inside) :
      Effect p s { s.to p c with plock := some p }
  | sleep {c : Pc P} (hl : (s.pc p).kind.plock = true)
      (hk : c.kind = { (s.pc p).kind with plock := false }) (hl' : (s.pc p).kind.lock = false)
      (hp : c.progress = (s.pc p).progress) (hi : c.inside) :
      Effect p s { s.to p c with plock := none }
  | wakeR {c : Pc P} (hl : (s.pc p).kind.lock = true) (hpl : (s.pc p).kind.plock = true)
      (hw : (s.pc p).kind.owesW = false)
      (hk : c.kind = { (s.pc p).kind with plock := false, owesR := false }) (hf : Fact c s.pipe)
      (hp : c.progress = (s.pc p).progress) (hi : c.inside) :
      Effect p s { s with pc := update (fun q => awakeR (s.pc q)) p c, plock := none }
  | wakeW {c : Pc P} (hl : (s.pc p).kind.lock = true) (hpl : (s.pc p).kind.plock = true)
      (hr : (s.pc p).kind.owesR = false)
      (hk : c.kind = { (s.pc p).kind with plock := false, owesW := false }) (hf : Fact c s.pipe)
      (hp : c.progress = (s.pc p).progress) (hi : c.inside) :
      Effect p s { s with pc := update (fun q => awakeW (s.pc q)) p c, plock := none }
  | store {buf : List UInt8} {i : Nat} (hpc : s.pc p = .wStore buf i) (hroom : ¬ s.pipe.full)
      (hi : i < buf.length) :
      Effect p s { s.to p (.wFor buf (i + 1)) with
        pipe := { s.pipe with ring := s.pipe.ring.push PIPESIZE (buf.getD i 0) }
        stored := s.stored ++ [(p, buf.getD i 0)] }
  | copy {n i : Nat} (hpc : s.pc p = .rCopy n i) (hsome : ¬ s.pipe.empty) :
      Effect p s { s.to p (.rFor n (i + 1)) with
        pipe := { s.pipe with ring := s.pipe.ring.pop }
        delivered := s.delivered ++ [(p, s.pipe.ring.front PIPESIZE)] }
  | close {w : Bool} (hpc : s.pc p = .cSet w) :
      Effect p s { s.to p (.cWakeAcq w) with
        pipe := if w then { s.pipe with writeopen := false } else { s.pipe with readopen := false } }
  | kill {t : P} (hpc : s.pc p = .kSet t) :
      Effect p s { s with
        pc := update (update s.pc t (rouse (s.pc t))) p .out
        killed := update s.killed t true
        plock := none }

section Effect

variable {p : P} {a : Act P} {s s' : St P}

theorem acquire_some {c : Pc P} (h : acquire s p c = some s') :
    s.lock = none ∧ s' = { s.to p c with lock := some p } := by
  unfold acquire at h
  split_ifs at h with hl
  exact ⟨hl, (Option.some.inj h).symm⟩

theorem acquirePtable_some {c : Pc P} (h : acquirePtable s p c = some s') :
    s.plock = none ∧ s' = { s.to p c with plock := some p } := by
  unfold acquirePtable at h
  split_ifs at h with hl
  exact ⟨hl, (Option.some.inj h).symm⟩

/-- **What a step can do**, given what the process knows at its control point. -/
theorem step_effect (hfact : Fact (s.pc p) s.pipe) (hin : (s.pc p).inside)
    (h : step p a s = some s') : Effect p s s' := by
  -- the moves, with the control point `c0` they start from
  have hmove : ∀ {c0 c : Pc P}, s.pc p = c0 → some (s.to p c) = some s' → c.kind = c0.kind →
      Fact c s.pipe → c.progress = c0.progress → c.inside → Effect p s s' := by
    rintro _ c rfl heq hk hf hp hi
    cases heq
    exact .move hk hf hp hi
  have hacq : ∀ {c0 c : Pc P} {o : Bool}, s.pc p = c0 → acquire s p c = some s' → c0.kind = {} →
      c.kind = { lock := true, owesR := o } → Fact c s.pipe → c.progress = c0.progress →
      c.inside → Effect p s s' := by
    rintro _ c o rfl heq hk0 hk hf hp hi
    obtain ⟨hfree, rfl⟩ := acquire_some heq
    exact .acq hfree hk0 hk hf hp hi
  have hpacq : ∀ {c0 c : Pc P}, s.pc p = c0 → acquirePtable s p c = some s' →
      c0.kind.plock = false → c.kind = { c0.kind with plock := true } → Fact c s.pipe →
      c.progress = c0.progress → c.inside → Effect p s s' := by
    rintro _ c rfl heq hk0 hk hf hp hi
    obtain ⟨hfree, rfl⟩ := acquirePtable_some heq
    exact .pacq hfree hk0 hk hf hp hi
  have hrel : ∀ {c0 c : Pc P}, s.pc p = c0 → release s p c = some s' → c0.kind.lock = true →
      c0.kind.owesR = false → c0.kind.owesW = false → c.kind = { c0.kind with lock := false } →
      c.progress = c0.progress → c.inside → Effect p s s' := by
    rintro _ c rfl heq hl hr hw hk hp hi
    cases heq
    exact .rel (f := s.freed) hl hr hw hk hp hi
  simp only [step] at h
  split at h
  case h_1 buf hpc | h_2 n hpc | h_3 w hpc | h_4 t hpc => exact hmove hpc h rfl trivial rfl trivial
  case h_5 buf hpc | h_20 n hpc | h_32 w hpc => exact hacq hpc h rfl rfl trivial rfl trivial
  case h_6 buf i hpc =>
    split_ifs at h with hi
    · exact hmove hpc h rfl trivial rfl hi
    · exact hmove hpc h rfl trivial (List.take_of_length_le (Nat.le_of_not_lt hi)).symm trivial
  case h_7 buf i hpc =>
    rw [hpc] at hin
    split_ifs at h with hf
    · exact hmove hpc h rfl hf rfl hin
    · exact hmove hpc h rfl hf rfl hin
  case h_8 buf i hpc =>
    rw [hpc] at hin hfact
    split_ifs at h with hc
    · cases h
      exact .fail hpc hc
    · cases h
      refine .waitW hpc hfact ?_ hin
      cases ho : s.pipe.readopen with
      | true => rfl
      | false => exact absurd (.inl ho) hc
  case h_9 buf i hpc =>
    cases h
    exact .leave (by rw [hpc]; rfl) (by rw [hpc]; rfl)
  case h_10 buf i hpc | h_12 buf i hpc =>
    rw [hpc] at hin
    exact hpacq hpc h rfl rfl trivial rfl hin
  case h_11 buf i hpc =>
    rw [hpc] at hin
    cases h
    exact .wakeR (by rw [hpc]; rfl) (by rw [hpc]; rfl) (by rw [hpc]; rfl) (by rw [hpc]; rfl)
      trivial (by rw [hpc]; rfl) hin
  case h_13 buf i hpc =>
    rw [hpc] at hin
    exact hrel hpc h rfl rfl rfl rfl rfl hin
  case h_14 buf i hpc =>
    rw [hpc] at hin
    cases h
    exact .sleep (by rw [hpc]; rfl) (by rw [hpc]; rfl) (by rw [hpc]; rfl) (by rw [hpc]; rfl) hin
  case h_15 buf i hpc =>
    rw [hpc] at hin
    exact hacq hpc h rfl rfl trivial rfl hin
  case h_16 buf i hpc =>
    rw [hpc] at hin hfact
    cases h
    exact .store hpc hfact hin
  case h_17 buf hpc | h_24 n hpc | h_34 w hpc | h_39 t hpc => exact hpacq hpc h rfl rfl trivial rfl trivial
  case h_18 buf hpc =>
    cases h
    exact .wakeR (by rw [hpc]; rfl) (by rw [hpc]; rfl) (by rw [hpc]; rfl) (by rw [hpc]; rfl)
      trivial (by rw [hpc]; rfl) trivial
  case h_19 buf hpc =>
    cases h
    exact .leave (by rw [hpc]; rfl) (by rw [hpc]; exact List.take_length.symm)
  case h_21 n hpc =>
    split_ifs at h with he
    · exact hmove hpc h rfl he rfl trivial
    · cases h
      exact .take hpc he
  case h_22 n hpc =>
    rw [hpc] at hfact
    split_ifs at h with hk
    · exact hmove hpc h rfl trivial rfl trivial
    · cases h
      exact .waitR hpc hfact.1 hfact.2
  case h_23 n hpc | h_25 n hpc | h_31 n i hpc | h_37 hpc => exact hrel hpc h rfl rfl rfl rfl rfl trivial
  case h_26 n hpc =>
    cases h
    exact .sleep (by rw [hpc]; rfl) (by rw [hpc]; rfl) (by rw [hpc]; rfl) (by rw [hpc]; rfl) trivial
  case h_27 n i hpc =>
    rw [hpc] at hfact
    split_ifs at h with hc
    · exact hmove hpc h rfl hc.2 rfl trivial
    · -- nothing copied although bytes were wanted: the pipe is empty and closed
      refine hmove hpc h rfl ?_ rfl trivial
      intro h0 hn
      have hempty : s.pipe.empty := by
        by_contra hne
        exact hc ⟨by omega, hne⟩
      refine ⟨hempty, ?_⟩
      cases ho : s.pipe.writeopen with
      | false => rfl
      | true => exact absurd ⟨hempty, ho⟩ (hfact h0)
  case h_28 n i hpc =>
    rw [hpc] at hfact
    cases h
    exact .copy hpc hfact
  case h_29 n i hpc =>
    rw [hpc] at hfact
    exact hpacq hpc h rfl rfl hfact rfl trivial
  case h_30 n i hpc =>
    rw [hpc] at hfact
    cases h
    exact .wakeW (by rw [hpc]; rfl) (by rw [hpc]; rfl) (by rw [hpc]; rfl) (by rw [hpc]; rfl)
      hfact (by rw [hpc]; rfl) trivial
  case h_33 w hpc =>
    cases h
    exact .close hpc
  case h_35 w hpc =>
    cases h
    cases w with
    | true =>
      exact .wakeR (by rw [hpc]; rfl) (by rw [hpc]; rfl) (by rw [hpc]; rfl) (by rw [hpc]; rfl)
        trivial (by rw [hpc]; rfl) trivial
    | false =>
      exact .wakeW (by rw [hpc]; rfl) (by rw [hpc]; rfl) (by rw [hpc]; rfl) (by rw [hpc]; rfl)
        trivial (by rw [hpc]; rfl) trivial
  case h_36 hpc =>
    split_ifs at h with hc
    · exact hmove hpc h rfl trivial rfl trivial
    · exact hmove hpc h rfl trivial rfl trivial
  case h_38 hpc =>
    cases h
    exact .rel (by rw [hpc]; rfl) (by rw [hpc]; rfl) (by rw [hpc]; rfl) (by rw [hpc]; rfl) (by rw [hpc]; rfl) trivial
  case h_40 t hpc =>
    cases h
    exact .kill hpc
  case h_41 => cases h

end Effect

end Xv6Pipe
