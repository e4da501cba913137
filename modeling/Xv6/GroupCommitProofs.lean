import Xv6.InterleaveProofs
import Xv6.LogicalDiskProofs

/-!
# Group commit — `begin_op`, `log_write` and `end_op` of any number of processes

Every process runs `begin_op`, any number of `log_write`s and `end_op`, over and over. A step
of the system is a step of one process between two accesses to shared memory: taking or
giving up `log.lock` or `ptable.lock`, one unlocked test of `log_write`, the body of one
locked section, one access of `commit`. What `commit` writes to the disk is the subject of
`LogCrashProofs`; here it matters when it reads the header and when it empties it.

`sleep` takes `ptable.lock` before it gives up `log.lock`, and `wakeup` runs under
`ptable.lock`; both are modelled lock by lock, so that a wakeup between the test and the sleep
would be seen.

Two things are recorded that the code does not store: the blocks that each operation in
progress has logged (`mine`), and those of the operations that ended since the last
commit (`ended`).
-/

namespace Xv6Group

open Interleave Xv6Disk Xv6Kernel Function

/-! ## The processes -/

/-- The three panics of `log.c`. -/
inductive LogPanic where
  | tooBig
  | outsideTrans
  | committing
deriving DecidableEq, Repr

/-- Where a process is in the code of the log. -/
inductive Pc where
  /-- outside of the log -/
  | out
  | beginAcq
  | beginTest
  | beginRel
  /-- in `sleep`: about to take `ptable.lock`, to give up `log.lock`, to go to sleep -/
  | sleepAcq
  | sleepRel
  | sleepSet
  | sleeping
  /-- between `begin_op` and `end_op` -/
  | op
  /-- `log_write`: the tests against `LOGSIZE`, `log.size` and `log.outstanding` -/
  | logTest (b : Nat)
  | logTest2 (b : Nat)
  | logTest3 (b : Nat)
  | logAcq (b : Nat)
  /-- the absorption loop, and the stores after it -/
  | logScan (b : Nat)
  | logStore (b i : Nat)
  | logRel
  | endAcq
  | endBody
  | endWakeAcq
  | endWake
  | endRel (doCommit : Bool)
  /-- `commit` -/
  | commitTest
  | writeLog
  | writeHead
  | installTrans
  | clearHead
  | writeHead2
  /-- the end of `end_op` after a commit -/
  | doneAcq
  | doneBody
  | doneWakeAcq
  | doneWake
  | doneRel
  | panicked (m : LogPanic)
deriving DecidableEq, Repr

/-- What a process does next; between `begin_op` and `end_op` it has a choice. -/
inductive Act where
  | go
  | log (b : Nat)
  | finish
deriving DecidableEq, Repr

/-- The shared state: `log.lock`, `ptable.lock`, the fields of `log`, and the processes. -/
structure St (P : Type) where
  lock : Option P
  plock : Option P
  outstanding : Int
  committing : Bool
  lh : List Nat
  pc : P → Pc
  mine : P → List Nat
  ended : List Nat

variable {P : Type}

/-- After `initlog`: the log is empty and nobody uses it. -/
def init (P : Type) : St P where
  lock := none
  plock := none
  outstanding := 0
  committing := false
  lh := []
  pc := fun _ => .out
  mine := fun _ => []
  ended := []

/-- The test of `begin_op`: this operation might exhaust log space. -/
def Full (s : St P) : Prop :=
  (LOGSIZE : Int) < s.lh.length + (s.outstanding + 1) * MAXOPBLOCKS

instance (s : St P) : Decidable (Full s) := inferInstanceAs (Decidable (_ < _))

/-- `wakeup(&log)` on the control point of a process. -/
def awake : Pc → Pc
  | .sleeping => .beginAcq
  | c => c

theorem owner_none {sec : Pc → Bool} (h : sec .out = false) : Owner sec (init P).pc none := by
  intro q
  show sec .out = true ↔ none = some q
  rw [h]
  constructor
  · intro hf; cases hf
  · intro hf; cases hf

variable [DecidableEq P] {size : Nat} {s s' : St P}

/-- The process goes on to `c`. -/
def St.to (s : St P) (p : P) (c : Pc) : St P := { s with pc := update s.pc p c }

def acquire (s : St P) (p : P) (c : Pc) : Option (St P) :=
  if s.lock = none then some { s.to p c with lock := some p } else none

def release (s : St P) (p : P) (c : Pc) : Option (St P) :=
  some { s.to p c with lock := none }

def acquirePtable (s : St P) (p : P) (c : Pc) : Option (St P) :=
  if s.plock = none then some { s.to p c with plock := some p } else none

/-- `wakeup1(&log)`, and the release of `ptable.lock` after it. -/
def wakeup (s : St P) (p : P) (c : Pc) : Option (St P) :=
  some { s with pc := update (fun q => awake (s.pc q)) p c, plock := none }

/-- The locked part of `end_op`. -/
def endOp (s : St P) (p : P) : Option (St P) :=
  if s.committing then
    some { s.to p (.panicked .committing) with outstanding := s.outstanding - 1 }
  else if s.outstanding - 1 = 0 then
    some { s.to p (.endRel true) with
      outstanding := s.outstanding - 1
      committing := true
      ended := s.mine p ++ s.ended
      mine := update s.mine p [] }
  else
    some { s.to p .endWakeAcq with
      outstanding := s.outstanding - 1
      ended := s.mine p ++ s.ended
      mine := update s.mine p [] }

/-- One step of process `p`, where `size` is `log.size`. -/
def step (size : Nat) (p : P) (a : Act) (s : St P) : Option (St P) :=
  match s.pc p, a with
  | .out, .go => some (s.to p .beginAcq)
  | .beginAcq, .go => acquire s p .beginTest
  | .beginTest, .go =>
    if s.committing then some (s.to p .sleepAcq)
    else if Full s then some (s.to p .sleepAcq)
    else some { s.to p .beginRel with outstanding := s.outstanding + 1 }
  | .beginRel, .go => release s p .op
  | .sleepAcq, .go => acquirePtable s p .sleepRel
  | .sleepRel, .go => release s p .sleepSet
  | .sleepSet, .go => some { s.to p .sleeping with plock := none }
  | .op, .log b => some (s.to p (.logTest b))
  | .op, .finish => some (s.to p .endAcq)
  | .logTest b, .go =>
    if LOGSIZE ≤ s.lh.length then some (s.to p (.panicked .tooBig))
    else some (s.to p (.logTest2 b))
  | .logTest2 b, .go =>
    if (size : Int) - 1 ≤ s.lh.length then some (s.to p (.panicked .tooBig))
    else some (s.to p (.logTest3 b))
  | .logTest3 b, .go =>
    if s.outstanding < 1 then some (s.to p (.panicked .outsideTrans))
    else some (s.to p (.logAcq b))
  | .logAcq b, .go => acquire s p (.logScan b)
  | .logScan b, .go => some (s.to p (.logStore b (s.lh.idxOf b)))
  | .logStore b i, .go =>
    some { s.to p .logRel with
      lh := if i = s.lh.length then s.lh ++ [b] else s.lh.set i b
      mine := update s.mine p (absorb (s.mine p) b) }
  | .logRel, .go => release s p .op
  | .endAcq, .go => acquire s p .endBody
  | .endBody, .go => endOp s p
  | .endWakeAcq, .go => acquirePtable s p .endWake
  | .endWake, .go => wakeup s p (.endRel false)
  | .endRel true, .go => release s p .commitTest
  | .endRel false, .go => release s p .out
  | .commitTest, .go =>
    if 0 < s.lh.length then some (s.to p .writeLog) else some (s.to p .doneAcq)
  | .writeLog, .go => some (s.to p .writeHead)
  | .writeHead, .go => some { s.to p .installTrans with ended := [] }
  | .installTrans, .go => some (s.to p .clearHead)
  | .clearHead, .go => some { s.to p .writeHead2 with lh := [] }
  | .writeHead2, .go => some (s.to p .doneAcq)
  | .doneAcq, .go => acquire s p .doneBody
  | .doneBody, .go => some { s.to p .doneWakeAcq with committing := false }
  | .doneWakeAcq, .go => acquirePtable s p .doneWake
  | .doneWake, .go => wakeup s p .doneRel
  | .doneRel, .go => release s p .out
  | _, _ => none

/-- Some process takes a step. -/
def Step (size : Nat) (s s' : St P) : Prop := ∃ p a, step size p a s = some s'

/-- A state that some interleaving leads to. -/
def Reach (size : Nat) (s : St P) : Prop := Relation.ReflTransGen (Step size) (init P) s

/-- Run a list of steps. -/
def runActs (size : Nat) : List (P × Act) → St P → Option (St P)
  | [], s => some s
  | (p, a) :: l, s => (step size p a s).bind (runActs size l)

theorem runActs_trans {l : List (P × Act)} : runActs size l s = some s' → Relation.ReflTransGen (Step size) s s' :=
  Interleave.run_of_steps (fun _ => rfl) (fun _ _ _ => rfl) fun x _ _ h => ⟨x.1, x.2, h⟩

theorem runActs_reach {l : List (P × Act)} {s : St P} (h : runActs size l (init P) = some s) : Reach size s :=
  runActs_trans h

/-! ## Regions of the code -/

/-- What matters of a control point: the locks held there, whether the process counts as
    outstanding, is committing (past the commit point, or with the header emptied), is on
    its way to sleep or about to wake the sleepers, and the block it is logging. -/
structure Kind where
  lock : Bool := false
  plock : Bool := false
  op : Bool := false
  commit : Bool := false
  past : Bool := false
  cleared : Bool := false
  waiter : Bool := false
  waking : Bool := false
  arg : Option Nat := none
deriving DecidableEq

def Pc.kind : Pc → Kind
  | .out => {}
  | .beginAcq => {}
  | .beginTest => { lock := true }
  | .beginRel => { lock := true, op := true }
  | .sleepAcq => { lock := true, waiter := true }
  | .sleepRel => { lock := true, plock := true, waiter := true }
  | .sleepSet => { plock := true, waiter := true }
  | .sleeping => { waiter := true }
  | .op => { op := true }
  | .logTest b => { op := true, arg := some b }
  | .logTest2 b => { op := true, arg := some b }
  | .logTest3 b => { op := true, arg := some b }
  | .logAcq b => { op := true, arg := some b }
  | .logScan b => { lock := true, op := true, arg := some b }
  | .logStore b _ => { lock := true, op := true, arg := some b }
  | .logRel => { lock := true, op := true }
  | .endAcq => { op := true }
  | .endBody => { lock := true, op := true }
  | .endWakeAcq => { lock := true, waking := true }
  | .endWake => { lock := true, plock := true, waking := true }
  | .endRel true => { lock := true, commit := true }
  | .endRel false => { lock := true }
  | .commitTest => { commit := true }
  | .writeLog => { commit := true }
  | .writeHead => { commit := true }
  | .installTrans => { commit := true, past := true }
  | .clearHead => { commit := true, past := true }
  | .writeHead2 => { commit := true, cleared := true }
  | .doneAcq => { commit := true, cleared := true }
  | .doneBody => { lock := true, commit := true, cleared := true }
  | .doneWakeAcq => { lock := true, waking := true }
  | .doneWake => { lock := true, plock := true, waking := true }
  | .doneRel => { lock := true }
  | .panicked .tooBig => { op := true }
  | .panicked .outsideTrans => { op := true }
  | .panicked .committing => { lock := true }

/-- The process is inside `log_write`. -/
def Pc.inLogWrite : Pc → Bool
  | .logTest _ | .logTest2 _ | .logTest3 _ | .logAcq _ | .logScan _ | .logStore _ _
  | .logRel => true
  | _ => false

/-- Where a flag is set after a move of `p`. -/
theorem kind_update (f : Kind → Bool) (pc : P → Pc) (p : P) (c : Pc) {q : P}
    (hq : f (update pc p c q).kind = true) : (q = p ∧ f c.kind = true) ∨ (q ≠ p ∧ f (pc q).kind = true) := by
  rw [update_apply] at hq
  split_ifs at hq with hqp
  · subst hqp
    exact Or.inl ⟨rfl, hq⟩
  · exact Or.inr ⟨hqp, hq⟩

/-- `wakeup` changes only who is on the way to sleep. -/
theorem kind_awake (f : Kind → Bool) (hf : f { waiter := true } = f {}) (c : Pc) :
    f (awake c).kind = f c.kind := by
  cases c <;> first | rfl | exact hf.symm

/-! ## What a step can do -/

/-- The effects that a step of `p` can have, in terms of the regions it moves between. -/
inductive Effect (size : Nat) (p : P) (a : Act) (s : St P) : St P → Prop where
  /-- a move inside a region -/
  | silent {c : Pc} (ht : c ≠ .panicked .tooBig) (hc : ∀ b i, c ≠ .logStore b i) (hk : c.kind = (s.pc p).kind) :
      Effect size p a s (s.to p c)
  | acq {c : Pc} (hfree : s.lock = none) (hc : ∀ b i, c ≠ .logStore b i)
      (hk : c.kind = { (s.pc p).kind with lock := true }) :
      Effect size p a s { s.to p c with lock := some p }
  | rel {c : Pc} (hl : (s.pc p).kind.lock = true) (ht : c ≠ .panicked .tooBig)
      (hc : ∀ b i, c ≠ .logStore b i) (hk : c.kind = { (s.pc p).kind with lock := false }) :
      Effect size p a s { s.to p c with lock := none }
  | pacq {c : Pc} (hfree : s.plock = none) (hc : ∀ b i, c ≠ .logStore b i)
      (hk : c.kind = { (s.pc p).kind with plock := true }) :
      Effect size p a s { s.to p c with plock := some p }
  /-- asleep, and `ptable.lock` free again -/
  | sleep (hp : (s.pc p).kind = { plock := true, waiter := true }) :
      Effect size p a s { s.to p .sleeping with plock := none }
  /-- `begin_op` has to wait -/
  | wait (hw : s.committing = true ∨ Full s) (hp : (s.pc p).kind = { lock := true }) :
      Effect size p a s (s.to p .sleepAcq)
  /-- `begin_op` goes ahead -/
  | enter (hc : s.committing = false) (hf : ¬ Full s) (hpc : s.pc p = .beginTest)
      (hp : (s.pc p).kind = { lock := true }) :
      Effect size p a s { s.to p .beginRel with outstanding := s.outstanding + 1 }
  /-- a call of `log_write` -/
  | call {b : Nat} (ha : a = .log b) (hp : (s.pc p).kind = { op := true }) :
      Effect size p a s (s.to p (.logTest b))
  | tooBig {b : Nat} (hn : LOGSIZE ≤ s.lh.length ∨ (size : Int) - 1 ≤ s.lh.length)
      (hp : (s.pc p).kind = { op := true, arg := some b }) :
      Effect size p a s (s.to p (.panicked .tooBig))
  | outsideTrans {b : Nat} (hp : (s.pc p).kind = { op := true, arg := some b }) :
      Effect size p a s (s.to p (.panicked .outsideTrans))
  | scan {b : Nat} (hp : (s.pc p).kind = { lock := true, op := true, arg := some b }) :
      Effect size p a s (s.to p (.logStore b (s.lh.idxOf b)))
  | store {b i : Nat} (hpc : s.pc p = .logStore b i)
      (hp : (s.pc p).kind = { lock := true, op := true, arg := some b }) :
      Effect size p a s { s.to p .logRel with
        lh := if i = s.lh.length then s.lh ++ [b] else s.lh.set i b
        mine := update s.mine p (absorb (s.mine p) b) }
  | endPanic (hc : s.committing = true) (hp : (s.pc p).kind = { lock := true, op := true }) :
      Effect size p a s
        { s.to p (.panicked .committing) with outstanding := s.outstanding - 1 }
  /-- the last outstanding operation ends -/
  | endLast (hc : s.committing = false) (ho : s.outstanding - 1 = 0)
      (hp : (s.pc p).kind = { lock := true, op := true }) :
      Effect size p a s { s.to p (.endRel true) with
        outstanding := s.outstanding - 1
        committing := true
        ended := s.mine p ++ s.ended
        mine := update s.mine p [] }
  | endMore (hc : s.committing = false) (ho : s.outstanding - 1 ≠ 0)
      (hp : (s.pc p).kind = { lock := true, op := true }) :
      Effect size p a s { s.to p .endWakeAcq with
        outstanding := s.outstanding - 1
        ended := s.mine p ++ s.ended
        mine := update s.mine p [] }
  | wake {c : Pc} (hc : ∀ b i, c ≠ .logStore b i) (hk : c.kind = { lock := true })
      (hp : (s.pc p).kind = { lock := true, plock := true, waking := true }) :
      Effect size p a s
        { s with pc := update (fun q => awake (s.pc q)) p c, plock := none }
  /-- nothing to commit -/
  | skip (hn : s.lh = []) (hp : (s.pc p).kind = { commit := true }) :
      Effect size p a s (s.to p .doneAcq)
  /-- the commit point -/
  | point (hp : (s.pc p).kind = { commit := true }) :
      Effect size p a s { s.to p .installTrans with ended := [] }
  | clear (hp : (s.pc p).kind = { commit := true, past := true }) :
      Effect size p a s { s.to p .writeHead2 with lh := [] }
  | done (hp : (s.pc p).kind = { lock := true, commit := true, cleared := true }) :
      Effect size p a s { s.to p .doneWakeAcq with committing := false }

theorem acquire_effect {p : P} {a : Act} {c : Pc}
    (h : acquire s p c = some s') (hk : c.kind = { (s.pc p).kind with lock := true })
    (hc : ∀ b i, c ≠ .logStore b i) : Effect size p a s s' := by
  rw [acquire] at h
  split_ifs at h with hfree
  cases h
  exact .acq hfree hc hk

theorem acquirePtable_effect {p : P} {a : Act} {c : Pc}
    (h : acquirePtable s p c = some s') (hk : c.kind = { (s.pc p).kind with plock := true })
    (hc : ∀ b i, c ≠ .logStore b i) : Effect size p a s s' := by
  rw [acquirePtable] at h
  split_ifs at h with hfree
  cases h
  exact .pacq hfree hc hk

theorem release_effect {p : P} {a : Act} {c : Pc} (h : release s p c = some s') (hl : (s.pc p).kind.lock = true)
    (hk : c.kind = { (s.pc p).kind with lock := false }) (ht : c ≠ .panicked .tooBig)
    (hc : ∀ b i, c ≠ .logStore b i) : Effect size p a s s' := by
  cases h
  exact .rel hl ht hc hk

theorem endOp_effect {p : P} {a : Act} (hp : s.pc p = .endBody) (h : endOp s p = some s') : Effect size p a s s' := by
  have hk : (s.pc p).kind = { lock := true, op := true } := by rw [hp]; rfl
  rw [endOp] at h
  cases hc : s.committing with
  | true =>
    rw [hc, if_pos rfl] at h
    cases h
    exact .endPanic hc hk
  | false =>
    rw [hc, if_neg Bool.false_ne_true] at h
    split_ifs at h with ho
    · cases h
      exact .endLast hc ho hk
    · cases h
      exact .endMore hc ho hk

/-- **Inversion of a step.** -/
theorem step_effect {p : P} {a : Act} (h : step size p a s = some s') : Effect size p a s s' := by
  have hsilent : ∀ {c : Pc}, some (s.to p c) = some s' → c.kind = (s.pc p).kind →
      c ≠ .panicked .tooBig → (∀ b i, c ≠ .logStore b i) → Effect size p a s s' := by
    intro c heq hk ht hc
    cases heq
    exact .silent ht hc hk
  simp only [step] at h
  split at h
  case h_1 hp | h_9 hp | h_24 hp | h_26 hp | h_28 hp => exact hsilent h (by rw [hp]; rfl) nofun nofun
  case h_2 hp | h_13 hp | h_17 hp | h_29 hp => exact acquire_effect h (by rw [hp]; rfl) nofun
  case h_3 hp =>
    split at h
    · next hc =>
      cases h
      exact .wait (Or.inl hc) (by rw [hp]; rfl)
    · next hc =>
      split_ifs at h with hf
      · cases h
        exact .wait (Or.inr hf) (by rw [hp]; rfl)
      · cases h
        exact .enter (Bool.eq_false_iff.mpr hc) hf hp (by rw [hp]; rfl)
  case h_4 hp | h_6 hp | h_16 hp | h_21 hp | h_22 hp | h_33 hp =>
    exact release_effect h (by rw [hp]; rfl) (by rw [hp]; rfl) nofun
      nofun
  case h_5 hp | h_19 hp | h_31 hp => exact acquirePtable_effect h (by rw [hp]; rfl) nofun
  case h_7 hp =>
    cases h
    exact .sleep (by rw [hp]; rfl)
  case h_8 hp =>
    cases h
    exact .call rfl (by rw [hp]; rfl)
  case h_10 b hp =>
    split_ifs at h with hn
    · cases h
      exact .tooBig (b := b) (Or.inl hn) (by rw [hp]; rfl)
    · exact hsilent h (by rw [hp]; rfl) nofun nofun
  case h_11 b hp =>
    split_ifs at h with hn
    · cases h
      exact .tooBig (b := b) (Or.inr hn) (by rw [hp]; rfl)
    · exact hsilent h (by rw [hp]; rfl) nofun nofun
  case h_12 b hp =>
    split_ifs at h with ho
    · cases h
      exact .outsideTrans (b := b) (by rw [hp]; rfl)
    · exact hsilent h (by rw [hp]; rfl) nofun nofun
  case h_14 hp =>
    cases h
    exact .scan (by rw [hp]; rfl)
  case h_15 hp =>
    cases h
    exact .store hp (by rw [hp]; rfl)
  case h_18 hp => exact endOp_effect hp h
  case h_20 hp | h_32 hp =>
    cases h
    exact .wake nofun rfl (by rw [hp]; rfl)
  case h_23 hp =>
    split_ifs at h with hn
    · exact hsilent h (by rw [hp]; rfl) nofun nofun
    · cases h
      exact .skip (List.length_eq_zero_iff.mp (Nat.eq_zero_of_not_pos hn)) (by rw [hp]; rfl)
  case h_25 hp =>
    cases h
    exact .point (by rw [hp]; rfl)
  case h_27 hp =>
    cases h
    exact .clear (by rw [hp]; rfl)
  case h_30 hp =>
    cases h
    exact .done (by rw [hp]; rfl)
  case h_34 => cases h

end Xv6Group
