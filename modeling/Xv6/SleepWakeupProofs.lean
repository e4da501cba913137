import Xv6.InterleaveProofs

/-!
# `sleep` and `wakeup` lose no wakeup

`proc.c` on any number of CPUs. A CPU is in its scheduler, or runs a process. A lock belongs to a
CPU; `ptable.lock` is taken by the scheduler and given up by the process it switches to, and the
other way round. Processes follow the protocol of condition synchronisation: they hold the lock of
a channel, test its condition, and call `sleep(chan, lk)` while it is false; or they hold the lock,
make the condition true, call `wakeup(chan)` and give the lock up. A process may also yield when it
holds no lock, kill another one, or make a condition false while it holds the channel's lock.
The lock of a channel may be `ptable.lock` itself, and then the caller of `wakeup` already holds it
and calls `wakeup1`.

The text of the kernel's functions is a table: at each control point one instruction and the next
control point. A step of the system is one instruction on one CPU.
-/

namespace Xv6Sleep

open Interleave Function Option

-- most results need decidable equality of CPUs, locks and channels only through the machine
set_option linter.unusedSectionVars false

/-- `enum procstate`, for the processes that exist -/
inductive ProcState where
  | runnable
  | running
  | sleeping
deriving DecidableEq

/-- `ptable.lock`, and the lock that goes with each channel -/
structure Locks (L Ch : Type) where
  ptable : L
  lockOf : Ch → L

/-- Where a process is in the kernel. -/
inductive Pc (n : Nat) (Ch : Type) where
  | out
  /-- the waiter: `acquire(lk); while(!cond) sleep(chan, lk); ...; release(lk)` -/
  | wAcq (ch : Ch)
  | wTest (ch : Ch)
  | wDone (ch : Ch)
  /-- `sleep(chan, lk)` -/
  | sAcq (ch : Ch)
  | sRel (ch : Ch)
  | sChan (ch : Ch)
  | sState (ch : Ch)
  | sSched (ch : Ch)
  | sTidy (ch : Ch)
  | sRelPtable (ch : Ch)
  | sReacq (ch : Ch)
  /-- the waker: `acquire(lk); cond = 1; wakeup(chan); release(lk)` -/
  | kAcq (ch : Ch)
  | kSet (ch : Ch)
  | kWakeup (ch : Ch)
  /-- `wakeup1`, at entry `j` of the table -/
  | kWake (ch : Ch) (j : Nat)
  | kRelPtable (ch : Ch)
  | kRel (ch : Ch)
  /-- `yield`, before it goes on at `sReacq` or outside -/
  | yAcq (back : Option Ch)
  | yState (back : Option Ch)
  | ySched (back : Option Ch)
  | yRel (back : Option Ch)
  /-- `kill` -/
  | xAcq (t : Fin n)
  | xSet (t : Fin n)
  | xRel
deriving DecidableEq

/-- What a process does next, where it has a choice. -/
inductive Act (n : Nat) (Ch : Type) where
  | go
  | wait (ch : Ch)
  | signal (ch : Ch)
  | consume
  | yield
  | kill (t : Fin n)
deriving DecidableEq

/-- What one instruction does. -/
inductive Instr (n : Nat) (L Ch : Type) where
  | nop
  | acquire (l : L)
  | release (l : L)
  | setCond (ch : Ch) (b : Bool)
  | setChan (o : Option Ch)
  | setState (x : ProcState)
  /-- `swtch` to the scheduler of the CPU -/
  | swtch
  /-- `if(p->state == SLEEPING && p->chan == chan) p->state = RUNNABLE` for entry `j` -/
  | wake (ch : Ch) (j : Fin n)
  /-- `if(p->state == SLEEPING) p->state = RUNNABLE` -/
  | rouse (t : Fin n)

/-- A CPU: between two rounds of its scheduler, in the round at entry `i` of the table, or
    running a process. -/
inductive Cpu (n : Nat) where
  | idle
  | scan (i : Nat)
  | run (p : Fin n)
deriving DecidableEq

structure St (n : Nat) (C L Ch : Type) where
  owner : L → Option C
  cond : Ch → Bool
  state : Fin n → ProcState
  chan : Fin n → Option Ch
  pc : Fin n → Pc n Ch
  cpu : C → Cpu n

variable {n : Nat} {C L Ch : Type}

/-- All locks free, all CPUs about to schedule, all processes about to return from `forkret`. -/
def init (n : Nat) (C L : Type) (cond : Ch → Bool) : St n C L Ch where
  owner := fun _ => none
  cond := cond
  state := fun _ => .runnable
  chan := fun _ => none
  pc := fun _ => .yRel none
  cpu := fun _ => .idle

/-- Where a process goes on after `yield`. -/
def resume : Option Ch → Pc n Ch
  | none => .out
  | some ch => .sReacq ch

section Code

variable [DecidableEq L] (K : Locks L Ch)

/-- The instruction at a control point, and the next control point. -/
@[simp] def code (cond : Ch → Bool) : Pc n Ch → Act n Ch → Option (Instr n L Ch × Pc n Ch)
  | .out, .wait ch => some (.nop, .wAcq ch)
  | .out, .signal ch => some (.nop, .kAcq ch)
  | .out, .yield => some (.nop, .yAcq none)
  | .out, .kill t => some (.nop, .xAcq t)
  | .wAcq ch, .go => some (.acquire (K.lockOf ch), .wTest ch)
  | .wTest ch, .go => some (.nop, if cond ch = true then .wDone ch else .sAcq ch)
  | .wDone ch, .consume => some (.setCond ch false, .wDone ch)
  | .wDone ch, .go => some (.release (K.lockOf ch), .out)
  | .sAcq ch, .go =>
    if K.lockOf ch ≠ K.ptable then some (.acquire K.ptable, .sRel ch) else some (.nop, .sChan ch)
  | .sRel ch, .go => some (.release (K.lockOf ch), .sChan ch)
  | .sChan ch, .go => some (.setChan (some ch), .sState ch)
  | .sState ch, .go => some (.setState .sleeping, .sSched ch)
  | .sSched ch, .go => some (.swtch, .sTidy ch)
  | .sTidy ch, .go =>
    some (.setChan none, if K.lockOf ch ≠ K.ptable then .sRelPtable ch else .wTest ch)
  | .sRelPtable ch, .go => some (.release K.ptable, .sReacq ch)
  | .sReacq ch, .go => some (.acquire (K.lockOf ch), .wTest ch)
  | .sReacq ch, .yield => some (.nop, .yAcq (some ch))
  | .kAcq ch, .go => some (.acquire (K.lockOf ch), .kSet ch)
  | .kSet ch, .go => some (.setCond ch true, .kWakeup ch)
  | .kWakeup ch, .go =>
    if K.lockOf ch ≠ K.ptable then some (.acquire K.ptable, .kWake ch 0)
    else some (.nop, .kWake ch 0)
  | .kWake ch j, .go =>
    if h : j < n then some (.wake ch ⟨j, h⟩, .kWake ch (j + 1))
    else some (.nop, if K.lockOf ch ≠ K.ptable then .kRelPtable ch else .kRel ch)
  | .kRelPtable ch, .go => some (.release K.ptable, .kRel ch)
  | .kRel ch, .go => some (.release (K.lockOf ch), .out)
  | .yAcq back, .go => some (.acquire K.ptable, .yState back)
  | .yState back, .go => some (.setState .runnable, .ySched back)
  | .ySched back, .go => some (.swtch, .yRel back)
  | .yRel back, .go => some (.release K.ptable, resume back)
  | .xAcq t, .go => some (.acquire K.ptable, .xSet t)
  | .xSet t, .go => some (.rouse t, .xRel)
  | .xRel, .go => some (.release K.ptable, .out)
  | _, _ => none

/-! ## Regions of the code -/

/-- The locks that the CPU of a process holds at a control point. -/
@[simp] def Pc.holds (l : L) : Pc n Ch → Bool
  | .wTest ch | .wDone ch | .sAcq ch | .kSet ch | .kWakeup ch | .kRel ch => l = K.lockOf ch
  | .sRel ch | .kWake ch _ | .kRelPtable ch => l = K.lockOf ch ∨ l = K.ptable
  | .sChan _ | .sState _ | .sSched _ | .sTidy _ | .sRelPtable _ | .yState _ | .ySched _ | .yRel _
  | .xSet _ | .xRel => l = K.ptable
  | .out | .wAcq _ | .sReacq _ | .kAcq _ | .yAcq _ | .xAcq _ => false

/-- The branches that are taken only for a lock other than `ptable.lock`. -/
@[simp] def Pc.wf : Pc n Ch → Prop
  | .sRel ch | .kRelPtable ch => K.lockOf ch ≠ K.ptable
  | _ => True

/-- The state of a process that runs. -/
@[simp] def Pc.running : Pc n Ch → ProcState
  | .sSched _ => .sleeping
  | .ySched _ => .runnable
  | _ => .running

/-- The control points at which a process can be switched out. -/
@[simp] def Pc.parked : Pc n Ch → Bool
  | .sTidy _ | .yRel _ => true
  | _ => false

/-- The channel that a process has in `p->chan`. -/
@[simp] def Pc.onChan : Pc n Ch → Option Ch
  | .sState ch | .sSched ch | .sTidy ch => some ch
  | _ => none

/-- The channel that a process is on its way to sleep on. -/
@[simp] def Pc.falls : Pc n Ch → Option Ch
  | .sAcq ch | .sRel ch | .sChan ch | .sState ch | .sSched ch => some ch
  | _ => none

/-- The process has made the condition of `ch` true and will still look at entry `p`. -/
@[simp] def Pc.owes (ch : Ch) (p : Fin n) : Pc n Ch → Prop
  | .kWakeup ch' => ch' = ch
  | .kWake ch' j => ch' = ch ∧ j ≤ p
  | _ => False

/-! ## What the code does at a control point -/

section Text

variable {K} {cond : Ch → Bool} {a : Act n Ch} {i : Instr n L Ch} {pc d : Pc n Ch}

theorem holds_resume (l : L) (back : Option Ch) : (resume (n := n) back).holds K l = false := by
  cases back <;> rfl

theorem wf_resume (back : Option Ch) : (resume (n := n) back).wf K := by
  cases back <;> trivial

theorem running_resume (back : Option Ch) : (resume (n := n) back).running = .running := by
  cases back <;> rfl

theorem onChan_resume (back : Option Ch) : (resume (n := n) back).onChan = none := by
  cases back <;> rfl

theorem falls_resume (back : Option Ch) : (resume (n := n) back).falls = none := by
  cases back <;> rfl

/-- How an instruction changes the locks that the CPU holds. -/
@[simp] def Instr.locks (K : Locks L Ch) (pc d : Pc n Ch) : Instr n L Ch → Prop
  | .acquire l => pc.holds K l = false ∧ ∀ l', d.holds K l' = (pc.holds K l' || decide (l' = l))
  | .release l => pc.holds K l = true ∧ ∀ l', d.holds K l' = (pc.holds K l' && decide (l' ≠ l))
  | .swtch => ∀ l, pc.holds K l = decide (l = K.ptable)
  | .setState _ | .rouse _ => pc.holds K K.ptable = true ∧ ∀ l, d.holds K l = pc.holds K l
  | .wake ch _ => pc.holds K K.ptable = true ∧ pc.holds K (K.lockOf ch) = true ∧
      ∀ l, d.holds K l = pc.holds K l
  | _ => ∀ l, d.holds K l = pc.holds K l

theorem code_locks (hwf : pc.wf K) (h : code K cond pc a = some (i, d)) : i.locks K pc d := by
  cases pc <;> cases a <;> simp only [code, reduceCtorEq] at h <;> (try split at h) <;>
    grind [Instr.locks, Pc.holds, Pc.wf, holds_resume]

/-- The state that a running process has before and after an instruction. -/
@[simp] def Instr.states (pc d : Pc n Ch) : Instr n L Ch → Prop
  | .setState x => pc.running = .running ∧ d.running = x
  | .swtch => pc.running ≠ .running ∧ d.parked = true ∧ (pc.running = .sleeping → d.onChan ≠ none)
  | _ => pc.running = .running ∧ d.running = .running

/-- What the code does at a control point. -/
structure Does (K : Locks L Ch) (cond : Ch → Bool) (pc : Pc n Ch) (i : Instr n L Ch) (d : Pc n Ch) : Prop where
  wf : d.wf K
  states : i.states pc d
  /-- `p->chan` is the channel of the control point. -/
  onChan : (∀ o, i = .setChan o → d.onChan = o) ∧ ((∀ o, i ≠ .setChan o) → d.onChan = pc.onChan)
  /-- A process starts to fall asleep only after it has found the condition false. -/
  falls : ∀ {ch}, d.falls = some ch → pc.falls = some ch ∨ (i = .nop ∧ cond ch = false)
  /-- A process that is switched out on a channel was falling asleep on it, and is not a waker. -/
  swtch : i = .swtch → (∀ ch, d.onChan = some ch → pc.falls = some ch) ∧ ∀ ch p, ¬ pc.owes ch p
  /-- A waker looks at every entry of the table. -/
  owes : ∀ {ch p}, pc.owes ch p → d.owes ch p ∨ i = .wake ch p
  /-- A process that makes a condition true goes on to wake the sleepers. -/
  setCond : ∀ {ch b}, i = .setCond ch b → b = false ∨ ∀ p : Fin n, d.owes ch p
  wake : ∀ {ch j}, i = .wake ch j → d = .kWake ch (j + 1)

theorem code_does (h : code K cond pc a = some (i, d)) : Does K cond pc i d := by
  cases pc <;> cases a <;> simp only [code, reduceCtorEq] at h <;> (try split at h) <;> constructor <;>
    grind [Instr.states, Pc.wf, Pc.running, Pc.parked, Pc.onChan, Pc.falls, Pc.owes, wf_resume, running_resume,
      onChan_resume, falls_resume]

theorem owes_holds {ch : Ch} {p : Fin n} (h : pc.owes ch p) : pc.holds K (K.lockOf ch) = true := by
  cases pc <;> grind [Pc.owes, Pc.holds]

theorem falls_holds {ch : Ch} (h : pc.falls = some ch) :
    pc.holds K (K.lockOf ch) = true ∨ pc.holds K K.ptable = true := by
  cases pc <;> grind [Pc.falls, Pc.holds]

/-- A process that is not in its normal state holds `ptable.lock`. -/
theorem running_holds (h : pc.running ≠ .running) : pc.holds K K.ptable = true := by
  cases pc <;> grind [Pc.running, Pc.holds]

theorem parked_plain (h : pc.parked = true) : pc.running = .running ∧ pc.falls = none ∧ ∀ ch p, ¬ pc.owes ch p := by
  cases pc <;> first | exact ⟨rfl, rfl, fun _ _ => id⟩ | exact nomatch h

theorem parked_holds (h : pc.parked = true) (l : L) : pc.holds K l = decide (l = K.ptable) := by
  cases pc <;> first | rfl | exact nomatch h

end Text

end Code

/-! ## The machine -/

variable [DecidableEq C] [DecidableEq L] [DecidableEq Ch] (K : Locks L Ch)

/-- Process `p` on CPU `c` executes an instruction and goes on to `d`. -/
def exec (c : C) (p : Fin n) (d : Pc n Ch) (s : St n C L Ch) :
    Instr n L Ch → Option (St n C L Ch)
  | .nop => some { s with pc := update s.pc p d }
  | .acquire l =>
    if s.owner l = none then
      some { s with owner := update s.owner l (some c), pc := update s.pc p d }
    else none
  | .release l =>
    some { s with owner := update s.owner l none, pc := update s.pc p d }
  | .setCond ch b =>
    some { s with cond := update s.cond ch b, pc := update s.pc p d }
  | .setChan o =>
    some { s with chan := update s.chan p o, pc := update s.pc p d }
  | .setState x =>
    some { s with state := update s.state p x, pc := update s.pc p d }
  | .swtch =>
    some { s with
      cpu := update s.cpu c (.scan (p + 1)), pc := update s.pc p d }
  | .wake ch j =>
    some { s with
      state := if s.state j = .sleeping ∧ s.chan j = some ch
        then update s.state j .runnable else s.state
      pc := update s.pc p d }
  | .rouse t =>
    some { s with
      state := if s.state t = .sleeping then update s.state t .runnable else s.state
      pc := update s.pc p d }

/-- One step of CPU `c`. -/
def step (c : C) (a : Act n Ch) (s : St n C L Ch) : Option (St n C L Ch) :=
  match s.cpu c with
  | .idle =>
    if s.owner K.ptable = none then
      some { s with
        owner := update s.owner K.ptable (some c)
        cpu := update s.cpu c (.scan 0) }
    else none
  | .scan i =>
    if h : i < n then
      if s.state ⟨i, h⟩ = .runnable then
        some { s with
          state := update s.state ⟨i, h⟩ .running
          cpu := update s.cpu c (.run ⟨i, h⟩) }
      else some { s with cpu := update s.cpu c (.scan (i + 1)) }
    else
      some { s with
        owner := update s.owner K.ptable none
        cpu := update s.cpu c .idle }
  | .run p => (code K s.cond (s.pc p) a).bind fun x => exec c p x.2 s x.1

/-- Some CPU takes a step. -/
def Step (s s' : St n C L Ch) : Prop := ∃ c a, step K c a s = some s'

/-- A state that some interleaving leads to. -/
def Reach (s : St n C L Ch) : Prop :=
  ∃ cond, Relation.ReflTransGen (Step K) (init n C L cond) s

/-- Run a list of steps. -/
def runActs : List (C × Act n Ch) → St n C L Ch → Option (St n C L Ch)
  | [], s => some s
  | (c, a) :: l, s => (step K c a s).bind (runActs l)

theorem runActs_trans {l : List (C × Act n Ch)} {s s' : St n C L Ch} :
    runActs K l s = some s' → Relation.ReflTransGen (Step K) s s' :=
  Interleave.run_of_steps (fun _ => rfl) (fun _ _ _ => rfl) fun x _ _ h => ⟨x.1, x.2, h⟩

/-! ## The invariant -/

variable {K : Locks L Ch} {c : C} {p : Fin n} {a : Act n Ch} {s s' : St n C L Ch} {l : L}

/-- A CPU holds a lock. -/
def held (K : Locks L Ch) (l : L) (s : St n C L Ch) (c : C) : Bool :=
  match s.cpu c with
  | .idle => false
  | .scan _ => l = K.ptable
  | .run p => (s.pc p).holds K l

/-- The process has found the condition of `ch` false, and falls asleep or sleeps. -/
def Waiting (s : St n C L Ch) (p : Fin n) (ch : Ch) : Prop :=
  (s.pc p).falls = some ch ∨ ((s.pc p).parked = true ∧ (s.pc p).onChan = some ch ∧ s.state p = .sleeping)

structure Inv (K : Locks L Ch) (s : St n C L Ch) : Prop where
  owner : ∀ l, Owner id (held K l s) (s.owner l)
  wf : ∀ p, (s.pc p).wf K
  once : ∀ c c' p, s.cpu c = .run p → s.cpu c' = .run p → c = c'
  running : ∀ c p, s.cpu c = .run p → s.state p = (s.pc p).running
  parked : ∀ p, (∀ c, s.cpu c ≠ .run p) →
    (s.pc p).parked = true ∧ s.state p ≠ .running ∧ (s.state p = .sleeping → (s.pc p).onChan ≠ none)
  chan : ∀ p ch, (s.pc p).onChan = some ch → s.chan p = some ch
  waits : ∀ p ch, Waiting s p ch → s.cond ch = false ∨ ∃ c q, s.cpu c = .run q ∧ (s.pc q).owes ch p

theorem inv_init (cond : Ch → Bool) : Inv K (init n C L cond) where
  owner := fun l c => by
    constructor
    · exact fun h => Bool.noConfusion h
    · exact nofun
  wf := fun _ => trivial
  once := nofun
  running := nofun
  parked := fun _ _ => ⟨rfl, ProcState.noConfusion, ProcState.noConfusion⟩
  chan := nofun
  waits := by
    rintro p ch (h | ⟨-, h, -⟩)
    · cases h
    · cases h

/-- Two CPUs that hold one lock are one CPU. -/
theorem Inv.same (h : Inv K s) {c' : C} {l : L} (h1 : held K l s c = true)
    (h2 : held K l s c' = true) : c = c' := (h.owner l).unique h1 h2

theorem held_run (hc : s.cpu c = .run p) : held K l s c = (s.pc p).holds K l := by
  unfold held
  rw [hc]

theorem held_scan {i : Nat} (hc : s.cpu c = .scan i) : held K l s c = decide (l = K.ptable) := by
  unfold held
  rw [hc]

/-- While CPU `c` holds `ptable.lock`, a process on another CPU is in its normal state. -/
theorem Inv.elsewhere (h : Inv K s) (hc : held K K.ptable s c = true) {c' : C} {q : Fin n}
    (hq : s.cpu c' = .run q) (hne : c' ≠ c) : s.state q = .running := by
  rw [h.running c' q hq]
  by_contra hr
  have hl : held K K.ptable s c' = true := by
    rw [held_run hq]
    exact running_holds hr
  exact hne (h.same hl hc)

/-- While CPU `c` holds `ptable.lock`, a sleeping process is switched out, or is the one that
    runs on `c`. -/
theorem Inv.asleep (h : Inv K s) (hc : held K K.ptable s c = true) {q : Fin n}
    (hq : s.state q = .sleeping) (hne : s.cpu c ≠ .run q) : ∀ c', s.cpu c' ≠ .run q := by
  intro c' hc'
  have hcc : c' ≠ c := by
    rintro rfl
    exact hne hc'
  rw [h.elsewhere hc hc' hcc] at hq
  cases hq

/-! ## Steps of the scheduler -/

/-- The scheduler takes or gives up `ptable.lock`, or goes on in its loop. -/
theorem inv_sched {x : Cpu n} {o : L → Option C} (h : Inv K s) (hc : ∀ q, s.cpu c ≠ .run q) (hx : ∀ q, x ≠ .run q)
    (howner : ∀ l, Owner id (held K l { s with owner := o, cpu := update s.cpu c x }) (o l)) :
    Inv K { s with owner := o, cpu := update s.cpu c x } := by
  have hrun : ∀ c' q, update s.cpu c x c' = .run q ↔ s.cpu c' = .run q := by
    intro c' q
    rw [update_apply]
    split_ifs with hcc
    · subst hcc
      exact ⟨fun hq => absurd hq (hx q), fun hq => absurd hq (hc q)⟩
    · rfl
  refine ⟨howner, h.wf, ?_, ?_, ?_, h.chan, ?_⟩
  · intro c1 c2 q h1 h2
    exact h.once c1 c2 q ((hrun c1 q).mp h1) ((hrun c2 q).mp h2)
  · intro c1 q h1
    exact h.running c1 q ((hrun c1 q).mp h1)
  · intro q hq
    exact h.parked q fun c1 h1 => hq c1 ((hrun c1 q).mpr h1)
  · intro q ch hq
    rcases h.waits q ch hq with hcond | ⟨c1, q1, h1, ho⟩
    · exact .inl hcond
    · exact .inr ⟨c1, q1, (hrun c1 q1).mpr h1, ho⟩

/-- The locks of the CPUs that do not take the step. -/
theorem held_other {o : L → Option C} {x : Cpu n} {c' : C} (hne : c' ≠ c) :
    held K l { s with owner := o, cpu := update s.cpu c x } c' = held K l s c' := by
  show (match update s.cpu c x c' with
    | .idle => false
    | .scan _ => decide (l = K.ptable)
    | .run p => (s.pc p).holds K l) = _
  rw [update_of_ne hne]
  rfl

theorem held_self {o : L → Option C} {x : Cpu n} :
    held K l { s with owner := o, cpu := update s.cpu c x } c = match x with
      | .idle => false
      | .scan _ => decide (l = K.ptable)
      | .run p => (s.pc p).holds K l := by
  show (match update s.cpu c x c with
    | .idle => false
    | .scan _ => decide (l = K.ptable)
    | .run p => (s.pc p).holds K l) = _
  rw [update_self]

theorem inv_schedAcquire (h : Inv K s) (hc : s.cpu c = .idle) (hfree : s.owner K.ptable = none) : Inv K { s with
      owner := update s.owner K.ptable (some c)
      cpu := update s.cpu c (.scan 0) } := by
  refine inv_sched h (fun q hq => nomatch hc.symm.trans hq) (fun q => nofun) fun l => ?_
  have hnot : held K l s c = false := by unfold held; rw [hc]
  refine owner_step (h.owner l) (fun c' hne => held_other hne) (fun hin => ?_) fun hout => ?_
  · have hl : l = K.ptable := of_decide_eq_true (held_self.symm.trans hin)
    subst hl
    exact ⟨update_self .., .inl hfree⟩
  · have hl : l ≠ K.ptable := of_decide_eq_false (held_self.symm.trans hout)
    rw [update_of_ne hl, id, hnot, if_neg (by decide)]

theorem inv_schedSkip {i j : Nat} (h : Inv K s) (hc : s.cpu c = .scan i) :
    Inv K { s with cpu := update s.cpu c (.scan j) } := by
  refine inv_sched h (fun q hq => nomatch hc.symm.trans hq) (fun q => nofun) fun l => ?_
  intro c'
  by_cases hcc : c' = c
  · subst hcc
    rw [held_self, ← held_scan (K := K) (l := l) hc]
    exact h.owner l c'
  · rw [held_other hcc]
    exact h.owner l c'

theorem inv_schedRelease {i : Nat} (h : Inv K s) (hc : s.cpu c = .scan i) : Inv K { s with
      owner := update s.owner K.ptable none
      cpu := update s.cpu c .idle } := by
  refine inv_sched h (fun q hq => nomatch hc.symm.trans hq) (fun q => nofun) fun l => ?_
  refine owner_step (h.owner l) (fun c' hne => held_other hne) (fun hin => ?_) fun _ => ?_
  · exact Bool.noConfusion (held_self.symm.trans hin)
  · rw [id, held_scan hc]
    by_cases hl : l = K.ptable
    · rw [hl, update_self, decide_eq_true rfl, if_pos rfl]
    · rw [update_of_ne hl, decide_eq_false hl, if_neg (by decide)]

/-- The locks of the other CPUs stay while a process goes on. -/
theorem Inv.held_away (h : Inv K s) (hc : s.cpu c = .run p) {c' : C} (hne : c' ≠ c) (hcpu : s'.cpu c' = s.cpu c')
    (hpc : ∀ q, q ≠ p → s'.pc q = s.pc q) : held K l s' c' = held K l s c' := by
  unfold held
  rw [hcpu]
  cases hc' : s.cpu c' with
  | idle => rfl
  | scan i => rfl
  | run q =>
    -- the process of another CPU is another process
    have hq : q ≠ p := by
      rintro rfl
      exact hne (h.once c' c q hc' hc)
    show (s'.pc q).holds K l = (s.pc q).holds K l
    rw [hpc q hq]

theorem Waiting.back {q : Fin n} {ch : Ch} (hw : Waiting s' q ch) (hpc : s'.pc q = s.pc q)
    (hst : s'.state q = .sleeping → s.state q = .sleeping) : Waiting s q ch := by
  rcases hw with hf | ⟨hpk, hch, hsl⟩
  · rw [hpc] at hf
    exact .inl hf
  · rw [hpc] at hpk hch
    exact .inr ⟨hpk, hch, hst hsl⟩

/-- The scheduler switches to a process. -/
theorem inv_schedRun (h : Inv K s) (hc : s.cpu c = .scan p) (hp : s.state p = .runnable) : Inv K { s with
      state := update s.state p .running
      cpu := update s.cpu c (.run p) } := by
  have hlock : held K K.ptable s c = true := by
    rw [held_scan hc]
    exact decide_eq_true rfl
  -- no CPU runs it: elsewhere it would be in its normal state
  have hout : ∀ c', s.cpu c' ≠ .run p := by
    intro c' hc'
    have hcc : c' ≠ c := by
      rintro rfl
      cases hc.symm.trans hc'
    rw [h.elsewhere hlock hc' hcc] at hp
    cases hp
  obtain ⟨hpark, -, -⟩ := h.parked p hout
  obtain ⟨hrunning, hfalls, -⟩ := parked_plain hpark
  have hstate : ∀ q, q ≠ p → update s.state p .running q = s.state q :=
    fun q hq => update_of_ne hq _ _
  refine ⟨fun l => ?_, h.wf, ?_, ?_, ?_, h.chan, ?_⟩
  · intro c'
    by_cases hcc : c' = c
    · subst hcc
      have hself : held K l { s with
          state := update s.state p .running
          cpu := update s.cpu c' (.run p) } c' = held K l s c' := by
        rw [held_scan hc, ← parked_holds hpark]
        exact held_run (update_self ..)
      rw [hself]
      exact h.owner l c'
    · have hother : held K l { s with
          state := update s.state p .running
          cpu := update s.cpu c (.run p) } c' = held K l s c' := held_other (o := s.owner) hcc
      rw [hother]
      exact h.owner l c'
  · intro c1 c2 q h1 h2
    have hback : ∀ c', update s.cpu c (.run p) c' = .run q → (c' = c ∧ q = p) ∨ (c' ≠ c ∧ s.cpu c' = .run q) := by
      intro c' h'
      rw [update_apply] at h'
      split_ifs at h' with hcc
      · subst hcc
        exact .inl ⟨rfl, (Cpu.run.inj h').symm⟩
      · exact .inr ⟨hcc, h'⟩
    rcases hback c1 h1 with ⟨e1, hq1⟩ | ⟨-, h1'⟩
    · rcases hback c2 h2 with ⟨e2, -⟩ | ⟨-, h2'⟩
      · rw [e1, e2]
      · rw [hq1] at h2'
        exact absurd h2' (hout c2)
    · rcases hback c2 h2 with ⟨-, hq2⟩ | ⟨-, h2'⟩
      · rw [hq2] at h1'
        exact absurd h1' (hout c1)
      · exact h.once c1 c2 q h1' h2'
  · intro c1 q h1
    show update s.state p .running q = (s.pc q).running
    by_cases hq : q = p
    · subst hq
      rw [update_self, hrunning]
    · have hcc : c1 ≠ c := by
        rintro rfl
        exact hq (Cpu.run.inj ((update_self c1 (Cpu.run p) s.cpu).symm.trans h1)).symm
      have h1' : s.cpu c1 = .run q := (update_of_ne hcc ..).symm.trans h1
      rw [hstate q hq]
      exact h.running c1 q h1'
  · intro q hq
    have hqp : q ≠ p := by
      rintro rfl
      exact hq c (update_self ..)
    have hq' : ∀ c', s.cpu c' ≠ .run q := by
      intro c' hc'
      have hcc : c' ≠ c := by
        rintro rfl
        cases hc.symm.trans hc'
      exact hq c' ((update_of_ne hcc ..).trans hc')
    show _ ∧ update s.state p .running q ≠ _ ∧ (update s.state p .running q = _ → _)
    rw [hstate q hqp]
    exact h.parked q hq'
  · intro q ch hq
    have hwait : Waiting s q ch := by
      refine hq.back rfl fun hsl => ?_
      by_cases hqp : q = p
      · subst hqp
        cases (update_self ..).symm.trans hsl
      · exact (hstate q hqp).symm.trans hsl
    rcases h.waits q ch hwait with hcond | ⟨c1, q1, h1, ho⟩
    · exact .inl hcond
    · have hcc : c1 ≠ c := by
        rintro rfl
        cases hc.symm.trans h1
      exact .inr ⟨c1, q1, (update_of_ne hcc ..).trans h1, ho⟩

/-! ## Steps of a process -/

/-- The owner `o` of a lock once `p`, on the CPU `c`, is at `d`: the CPU if it holds the lock there, else as before
    but for what it has held. -/
def Owned (K : Locks L Ch) (s : St n C L Ch) (c : C) (p : Fin n) (d : Pc n Ch) (l : L) (o : Option C) : Prop :=
  (d.holds K l = true → o = some c ∧ (s.owner l = none ∨ (s.pc p).holds K l = true)) ∧
    (d.holds K l = false → o = if (s.pc p).holds K l = true then none else s.owner l)

/-- **What a step of a running process has to keep**, for every instruction but `swtch`. -/
theorem inv_run {d : Pc n Ch} (h : Inv K s) (hc : s.cpu c = .run p) (hcpu : s'.cpu = s.cpu)
    (hpc : s'.pc = update s.pc p d) (hwf : d.wf K) (howner : ∀ l, Owned K s c p d l (s'.owner l))
    (hself : s'.state p = d.running) (hstate : ∀ q, q ≠ p → s'.state q = s.state q ∨
      ((∀ c', s.cpu c' ≠ .run q) ∧ s'.state q = .runnable)) (hchan : ∀ q, q ≠ p → s'.chan q = s.chan q)
    (honChan : ∀ ch, d.onChan = some ch → s'.chan p = some ch)
    (hfalls : ∀ ch, d.falls = some ch → (s.pc p).falls = some ch ∨ s.cond ch = false)
    (hcond : ∀ ch, s.cond ch = false → s'.cond ch = false ∨ ∀ q, d.owes ch q)
    (howes : ∀ ch q, (s.pc p).owes ch q → d.owes ch q ∨ ¬ Waiting s' q ch) : Inv K s' := by
  have hpcp : s'.pc p = d := by rw [hpc, update_self]
  have hpcq : ∀ q, q ≠ p → s'.pc q = s.pc q := fun q hq => by rw [hpc, update_of_ne hq]
  refine ⟨fun l => ?_, ?_, ?_, ?_, ?_, ?_, ?_⟩
  · have hheld : held K l s' c = d.holds K l := by
      rw [held_run (hcpu ▸ hc), hpcp]
    have hheld0 : held K l s c = (s.pc p).holds K l := held_run hc
    refine owner_step (h.owner l) (p := c) (fun c' hne => ?_) (fun hin => ?_) fun hout => ?_
    · exact h.held_away hc hne (congrFun hcpu c') hpcq
    · rw [id, hheld0]
      exact (howner l).1 (hheld ▸ hin)
    · rw [id, hheld0]
      exact (howner l).2 (hheld ▸ hout)
  · intro q
    by_cases hq : q = p
    · subst hq; rw [hpcp]; exact hwf
    · rw [hpcq q hq]; exact h.wf q
  · rw [hcpu]
    exact h.once
  · intro c1 q h1
    rw [hcpu] at h1
    by_cases hq : q = p
    · subst hq; rw [hpcp]; exact hself
    · rw [hpcq q hq]
      rcases hstate q hq with heq | ⟨hnot, -⟩
      · rw [heq]; exact h.running c1 q h1
      · exact absurd h1 (hnot c1)
  · intro q hout
    rw [hcpu] at hout
    have hq : q ≠ p := by
      rintro rfl
      exact hout c hc
    obtain ⟨h1, h2, h3⟩ := h.parked q hout
    rw [hpcq q hq]
    rcases hstate q hq with heq | ⟨-, heq⟩
    · rw [heq]; exact ⟨h1, h2, h3⟩
    · rw [heq]; exact ⟨h1, nofun, nofun⟩
  · intro q ch hq
    by_cases hqp : q = p
    · subst hqp; rw [hpcp] at hq; exact honChan ch hq
    · rw [hpcq q hqp] at hq; rw [hchan q hqp]; exact h.chan q ch hq
  · intro q ch hw
    -- it was waiting before, or has just found the condition false
    have hbefore : s.cond ch = false ∨ Waiting s q ch := by
      by_cases hqp : q = p
      · subst hqp
        rcases hw with hf | ⟨hpk, -, hsl⟩
        · rw [hpcp] at hf
          rcases hfalls ch hf with hf' | hf'
          · exact .inr (.inl hf')
          · exact .inl hf'
        · rw [hpcp] at hpk
          rw [hself, (parked_plain hpk).1] at hsl
          cases hsl
      · refine .inr (hw.back (hpcq q hqp) fun hsl => ?_)
        rcases hstate q hqp with heq | ⟨-, heq⟩
        · exact heq ▸ hsl
        · cases heq.symm.trans hsl
    have hfalse : s.cond ch = false → s'.cond ch = false ∨ ∃ c q', s'.cpu c = .run q' ∧ (s'.pc q').owes ch q := by
      intro hf
      rcases hcond ch hf with hf' | ho
      · exact .inl hf'
      · exact .inr ⟨c, p, hcpu ▸ hc, hpcp ▸ ho q⟩
    rcases hbefore with hf | hw0
    · exact hfalse hf
    · rcases h.waits q ch hw0 with hf | ⟨c1, q1, h1, ho⟩
      · exact hfalse hf
      · right
        by_cases hq1 : q1 = p
        · subst hq1
          rcases howes ch q ho with ho' | hno
          · exact ⟨c, q1, hcpu ▸ hc, hpcp ▸ ho'⟩
          · exact absurd hw hno
        · exact ⟨c1, q1, hcpu ▸ h1, by rw [hpcq q1 hq1]; exact ho⟩

section Exec

variable {d : Pc n Ch} {i : Instr n L Ch}

section

variable (h : Inv K s)
include h

section

variable (hc : s.cpu c = .run p) {l : L}
include hc

/-- A lock that stays as it is. -/
theorem Inv.ownerSame (hl : d.holds K l = (s.pc p).holds K l) : Owned K s c p d l (s.owner l) := by
  rw [Owned, hl]
  constructor
  · intro hin
    exact ⟨(h.owner l c).mp ((held_run hc).trans hin), .inr hin⟩
  · intro hout
    rw [hout, if_neg (by decide)]

theorem Inv.ownerAcquire (hfree : s.owner l = none)
    (hl : ∀ l', d.holds K l' = ((s.pc p).holds K l' || decide (l' = l))) (l' : L) :
    Owned K s c p d l' (update s.owner l (some c) l') := by
  by_cases heq : l' = l
  · subst heq
    rw [Owned, hl, update_self, decide_eq_true rfl, Bool.or_true]
    exact ⟨fun _ => ⟨rfl, .inl hfree⟩, nofun⟩
  · rw [update_of_ne heq]
    exact h.ownerSame hc (by rw [hl, decide_eq_false heq, Bool.or_false])

theorem Inv.ownerRelease (hheld : (s.pc p).holds K l = true)
    (hl : ∀ l', d.holds K l' = ((s.pc p).holds K l' && decide (l' ≠ l))) (l' : L) :
    Owned K s c p d l' (update s.owner l none l') := by
  by_cases heq : l' = l
  · subst heq
    rw [Owned, hl, update_self, hheld, if_pos rfl, decide_eq_false (fun hne => hne rfl), Bool.and_false]
    exact ⟨nofun, fun _ => rfl⟩
  · rw [update_of_ne heq]
    exact h.ownerSame hc (by rw [hl, decide_eq_true heq, Bool.and_true])

/-- A CPU that holds the lock of a channel and `ptable.lock` sees every process that waits on the
    channel asleep, other than the one it runs. -/
theorem Inv.seen (hpt : (s.pc p).holds K K.ptable = true)
    {ch : Ch} (hlk : (s.pc p).holds K (K.lockOf ch) = true) {q : Fin n} (hq : q ≠ p) : (s.pc q).falls ≠ some ch := by
  intro hf
  have hon : ∃ c', s.cpu c' = .run q := by
    by_contra hnot
    have hpk := (h.parked q fun c' hc' => hnot ⟨c', hc'⟩).1
    rw [(parked_plain hpk).2.1] at hf
    cases hf
  obtain ⟨c', hc'⟩ := hon
  have hcc : c' = c := by
    rcases falls_holds (K := K) hf with hl | hl
    · exact h.same ((held_run hc').trans hl) ((held_run hc).trans hlk)
    · exact h.same ((held_run hc').trans hl) ((held_run hc).trans hpt)
  subst hcc
  exact hq (Cpu.run.inj (hc'.symm.trans hc))

/-- `wakeup1` and `kill`: the process itself goes on running, and an entry that they change was asleep and
    switched out. -/
theorem Inv.roused (hdoes : Does K s.cond (s.pc p) i d) (hpt : (s.pc p).holds K K.ptable = true)
    (hl : ∀ l, d.holds K l = (s.pc p).holds K l) (hr : (s.pc p).running = .running ∧ d.running = .running)
    (hi : ∀ o, i ≠ .setChan o) {b : Prop} [Decidable b] {j : Fin n} (hb : b → s.state j = .sleeping)
    (hs : s' = { s with state := if b then update s.state j .runnable else s.state, pc := update s.pc p d })
    (hfalls : ∀ ch, d.falls = some ch → (s.pc p).falls = some ch ∨ s.cond ch = false)
    (howes : ∀ ch q, (s.pc p).owes ch q → d.owes ch q ∨ ¬ Waiting s' q ch) : Inv K s' := by
  have hp : s.state p = .running := (h.running c p hc).trans hr.1
  have hstate : s'.state = if b then update s.state j .runnable else s.state := by rw [hs]
  refine inv_run h hc (by rw [hs]) (by rw [hs]) hdoes.wf (fun l => ?_) ?_ ?_ (fun _ _ => by rw [hs]) ?_ hfalls
    (fun _ hf => .inl (by rw [hs]; exact hf)) howes
  · rw [hs]
    exact h.ownerSame hc (hl l)
  · rw [hstate, hr.2]
    split_ifs with hj
    · have hpj : p ≠ j := by
        rintro rfl
        cases hp.symm.trans (hb hj)
      exact (update_of_ne hpj _ _).trans hp
    · exact hp
  · intro q hq
    rw [hstate]
    split_ifs with hj
    · by_cases hqj : q = j
      · subst hqj
        refine .inr ⟨h.asleep ((held_run hc).trans hpt) (hb hj) fun hrun => ?_, update_self ..⟩
        exact hq (Cpu.run.inj (hrun.symm.trans hc))
      · exact .inl (update_of_ne hqj _ _)
    · exact .inl rfl
  · intro ch hch
    rw [hs]
    exact h.chan p ch ((hdoes.onChan.2 hi).symm.trans hch)

theorem inv_wake {ch : Ch} {j : Fin n} (hcode : code K s.cond (s.pc p) a = some (.wake ch j, d)) : Inv K { s with
      state := if s.state j = .sleeping ∧ s.chan j = some ch
        then update s.state j .runnable else s.state
      pc := update s.pc p d } := by
  obtain ⟨hpt, hlk, hl⟩ := code_locks (h.wf p) hcode
  have hdoes := code_does hcode
  have hd := hdoes.wake rfl
  refine h.roused hc hdoes hpt hl hdoes.states nofun (b := s.state j = .sleeping ∧ s.chan j = some ch)
    And.left rfl ?_ ?_
  · intro ch' hf
    rw [hd] at hf
    cases hf
  · intro ch' q ho
    rcases hdoes.owes ho with ho' | heq
    · exact .inl ho'
    · -- this is the entry that the instruction looks at
      obtain ⟨rfl, rfl⟩ : ch = ch' ∧ j = q := by simpa using heq
      right
      intro hw
      by_cases hjp : j = p
      · subst hjp
        have hpc : update s.pc j d j = .kWake ch (j + 1) := by
          rw [update_self, hd]
        rcases hw with hf | ⟨hpk, -, -⟩
        · cases (congrArg Pc.falls hpc).symm.trans hf
        · cases (congrArg Pc.parked hpc).symm.trans hpk
      · have hpc : update s.pc p d j = s.pc j := update_of_ne hjp _ _
        rcases hw with hf | ⟨hpk, hon, hsl⟩
        · exact h.seen hc hpt hlk hjp ((congrArg Pc.falls hpc).symm.trans hf)
        · have hchan := h.chan j ch ((congrArg Pc.onChan hpc).symm.trans hon)
          have hsl' : (if s.state j = .sleeping ∧ s.chan j = some ch
            then update s.state j .runnable else s.state) j = .sleeping := hsl
          split at hsl'
          · cases (update_self ..).symm.trans hsl'
          · rename_i hno
            exact hno ⟨hsl', hchan⟩

theorem inv_rouse {t : Fin n} (hcode : code K s.cond (s.pc p) a = some (.rouse t, d)) : Inv K { s with
      state := if s.state t = .sleeping then update s.state t .runnable else s.state
      pc := update s.pc p d } := by
  obtain ⟨hpt, hl⟩ := code_locks (h.wf p) hcode
  have hdoes := code_does hcode
  refine h.roused hc hdoes hpt hl hdoes.states nofun (b := s.state t = .sleeping) id rfl ?_ ?_
  · intro ch' hf
    rcases hdoes.falls hf with hf' | ⟨heq, -⟩
    · exact .inl hf'
    · cases heq
  · intro ch' q ho
    rcases hdoes.owes ho with ho' | heq
    · exact .inl ho'
    · cases heq

theorem inv_swtch {x : Nat} (hcode : code K s.cond (s.pc p) a = some (.swtch, d)) :
    Inv K { s with cpu := update s.cpu c (.scan x), pc := update s.pc p d } := by
  have hl := code_locks (h.wf p) hcode
  have hdoes := code_does hcode
  obtain ⟨hr, hpk, hch⟩ := hdoes.states
  have hpcq : ∀ q, q ≠ p → update s.pc p d q = s.pc q :=
    fun q hq => update_of_ne hq _ _
  have hpcp : update s.pc p d p = d := update_self ..
  -- the CPU runs no process now, and the others run what they ran
  have hrun : ∀ c' q, update s.cpu c (.scan x) c' = .run q → q ≠ p ∧ s.cpu c' = .run q := by
    intro c' q hq
    have hcc : c' ≠ c := by
      rintro rfl
      cases (update_self ..).symm.trans hq
    have hq' : s.cpu c' = .run q := (update_of_ne hcc ..).symm.trans hq
    refine ⟨?_, hq'⟩
    rintro rfl
    exact hcc (h.once c' c q hq' hc)
  have hstill : ∀ c' q, q ≠ p → s.cpu c' = .run q → update s.cpu c (.scan x) c' = .run q := by
    intro c' q hq hc'
    have hcc : c' ≠ c := by
      rintro rfl
      exact hq (Cpu.run.inj (hc'.symm.trans hc))
    exact (update_of_ne hcc ..).trans hc'
  refine ⟨fun l => ?_, ?_, ?_, ?_, ?_, ?_, ?_⟩
  · intro c'
    have hheld : held K l { s with
        cpu := update s.cpu c (.scan x), pc := update s.pc p d } c' = held K l s c' := by
      by_cases hcc : c' = c
      · subst hcc
        rw [held_run hc, hl l]
        exact held_scan (i := x) (update_self ..)
      · exact h.held_away hc hcc (update_of_ne hcc ..) hpcq
    rw [hheld]
    exact h.owner l c'
  · intro q
    show (update s.pc p d q).wf K
    by_cases hq : q = p
    · subst hq; rw [hpcp]; exact hdoes.wf
    · rw [hpcq q hq]; exact h.wf q
  · intro c1 c2 q h1 h2
    exact h.once c1 c2 q (hrun c1 q h1).2 (hrun c2 q h2).2
  · intro c1 q h1
    obtain ⟨hq, h1'⟩ := hrun c1 q h1
    show s.state q = (update s.pc p d q).running
    rw [hpcq q hq]
    exact h.running c1 q h1'
  · intro q hout
    show (update s.pc p d q).parked = true ∧ s.state q ≠ .running ∧
      (s.state q = .sleeping → (update s.pc p d q).onChan ≠ none)
    by_cases hq : q = p
    · subst hq
      rw [hpcp, h.running c q hc]
      exact ⟨hpk, hr, hch⟩
    · rw [hpcq q hq]
      exact h.parked q fun c' hc' => hout c' (hstill c' q hq hc')
  · intro q ch hq
    have hq' : (update s.pc p d q).onChan = some ch := hq
    by_cases hqp : q = p
    · subst hqp
      rw [hpcp, hdoes.onChan.2 nofun] at hq'
      exact h.chan q ch hq'
    · rw [hpcq q hqp] at hq'
      exact h.chan q ch hq'
  · intro q ch hw
    have hw0 : Waiting s q ch := by
      by_cases hqp : q = p
      · subst hqp
        rcases hw with hf | ⟨-, hon, -⟩
        · cases (parked_plain hpk).2.1.symm.trans ((congrArg Pc.falls hpcp).symm.trans hf)
        · exact .inl ((hdoes.swtch rfl).1 _ ((congrArg Pc.onChan hpcp).symm.trans hon))
      · exact hw.back (hpcq q hqp) id
    rcases h.waits q ch hw0 with hf | ⟨c1, q1, h1, ho⟩
    · exact .inl hf
    · have hq1 : q1 ≠ p := by
        rintro rfl
        exact (hdoes.swtch rfl).2 ch q ho
      refine .inr ⟨c1, q1, hstill c1 q1 hq1 h1, ?_⟩
      show (update s.pc p d q1).owes ch q
      rw [hpcq q1 hq1]
      exact ho

theorem inv_exec
    (hcode : code K s.cond (s.pc p) a = some (i, d)) (hexec : exec c p d s i = some s') : Inv K s' := by
  have hlocks := code_locks (h.wf p) hcode
  have hdoes := code_does hcode
  have hstates := hdoes.states
  have hwf := hdoes.wf
  have hrun := h.running c p hc
  have hchan : (∀ o, i ≠ .setChan o) → ∀ ch, d.onChan = some ch → s.chan p = some ch := by
    intro hi ch hch
    exact h.chan p ch ((hdoes.onChan.2 hi).symm.trans hch)
  have hfalls : ∀ ch, d.falls = some ch → (s.pc p).falls = some ch ∨ s.cond ch = false := by
    intro ch hf
    rcases hdoes.falls hf with hf' | ⟨-, hf'⟩
    · exact .inl hf'
    · exact .inr hf'
  have howes : (∀ ch j, i ≠ .wake ch j) → ∀ ch q, (s.pc p).owes ch q → d.owes ch q ∨ ¬ Waiting s' q ch := by
    intro hi ch q ho
    rcases hdoes.owes ho with ho' | heq
    · exact .inl ho'
    · exact absurd heq (hi ch q)
  cases i with
  | nop =>
    cases hexec
    exact inv_run h hc rfl rfl hwf (fun l => h.ownerSame hc (hlocks l)) (hrun.trans (hstates.1.trans hstates.2.symm))
      (fun _ _ => .inl rfl) (fun _ _ => rfl) (hchan nofun) hfalls (fun _ hf => .inl hf) (howes nofun)
  | acquire l =>
    have hfree : s.owner l = none := by
      by_contra hne
      rw [exec, if_neg hne] at hexec
      cases hexec
    rw [exec, if_pos hfree] at hexec
    cases hexec
    exact inv_run h hc rfl rfl hwf (h.ownerAcquire hc hfree hlocks.2)
      (hrun.trans (hstates.1.trans hstates.2.symm))
      (fun _ _ => .inl rfl) (fun _ _ => rfl) (hchan nofun) hfalls (fun _ hf => .inl hf) (howes nofun)
  | release l =>
    cases hexec
    exact inv_run h hc rfl rfl hwf (h.ownerRelease hc hlocks.1 hlocks.2)
      (hrun.trans (hstates.1.trans hstates.2.symm))
      (fun _ _ => .inl rfl) (fun _ _ => rfl) (hchan nofun) hfalls (fun _ hf => .inl hf) (howes nofun)
  | setCond ch b =>
    cases hexec
    refine inv_run h hc rfl rfl hwf (fun l => h.ownerSame hc (hlocks l))
      (hrun.trans (hstates.1.trans hstates.2.symm))
      (fun _ _ => .inl rfl) (fun _ _ => rfl) (hchan nofun) hfalls (fun ch' hf => ?_) (howes nofun)
    show update s.cond ch b ch' = false ∨ _
    rw [update_apply]
    split_ifs with heq
    · subst heq
      exact hdoes.setCond rfl
    · exact .inl hf
  | setChan o =>
    cases hexec
    refine inv_run h hc rfl rfl hwf (fun l => h.ownerSame hc (hlocks l))
      (hrun.trans (hstates.1.trans hstates.2.symm))
      (fun _ _ => .inl rfl) (fun q hq => update_of_ne hq _ _) (fun ch hch => ?_) hfalls
      (fun _ hf => .inl hf) (howes nofun)
    show update s.chan p o p = some ch
    rw [update_self, ← hdoes.onChan.1 o rfl, hch]
  | setState x =>
    cases hexec
    exact inv_run h hc rfl rfl hwf (fun l => h.ownerSame hc (hlocks.2 l))
      ((update_self ..).trans hstates.2.symm)
      (fun q hq => .inl (update_of_ne hq _ _)) (fun _ _ => rfl) (hchan nofun) hfalls
      (fun _ hf => .inl hf) (howes nofun)
  | swtch =>
    cases hexec
    exact inv_swtch h hc hcode
  | wake ch j =>
    cases hexec
    exact inv_wake h hc hcode
  | rouse t =>
    cases hexec
    exact inv_rouse h hc hcode

end

end

end Exec

/-- **Every step of every CPU keeps the invariant.** -/
theorem step_inv (h : Inv K s) (hs : step K c a s = some s') : Inv K s' := by
  unfold step at hs
  split at hs
  · rename_i hc
    split_ifs at hs with hfree
    cases hs
    exact inv_schedAcquire h hc hfree
  · rename_i i hc
    split at hs
    · rename_i hi
      split at hs
      · rename_i hp
        cases hs
        exact inv_schedRun h hc hp
      · cases hs
        exact inv_schedSkip h hc
    · cases hs
      exact inv_schedRelease h hc
  · rename_i p hc
    obtain ⟨⟨i, d⟩, hcode, hexec⟩ := bind_eq_some_iff.mp hs
    exact inv_exec h hc hcode hexec

theorem reach_inv (h : Reach K s) : Inv K s := by
  obtain ⟨cond, hrun⟩ := h
  refine run_inv (inv_init cond) ?_ hrun
  rintro s1 s2 h1 ⟨c, a, hs⟩
  exact step_inv h1 hs

/-- **`sleep` and `wakeup` lose no wakeup.** In no reachable state are the lock of a channel and
    `ptable.lock` free and the condition true, while a process that found it false is still
    asleep on the channel. -/
theorem sleep_wakeup_no_loss (hr : Reach K s) (ch : Ch) (hlk : s.owner (K.lockOf ch) = none)
    (hpt : s.owner K.ptable = none) (hcond : s.cond ch = true) (p : Fin n) :
    ¬ (s.state p = .sleeping ∧ s.chan p = some ch) := by
  rintro ⟨hsl, hch⟩
  have h := reach_inv hr
  have hfree : ∀ {l : L}, s.owner l = none → ∀ c, held K l s c = false := by
    intro l hl c
    have ho := h.owner l
    rw [hl] at ho
    exact ho.free c
  -- no CPU is on its way to switch it out, so it is parked in `sleep`
  have hout : ∀ c, s.cpu c ≠ .run p := by
    intro c hc
    have hr := h.running c p hc
    have hl : held K K.ptable s c = true := by
      refine (held_run hc).trans (running_holds ?_)
      rw [← hr, hsl]
      nofun
    rw [hfree hpt c] at hl
    cases hl
  obtain ⟨hpk, -, hon⟩ := h.parked p hout
  obtain ⟨ch', hch'⟩ := ne_none_iff_exists'.mp (hon hsl)
  obtain rfl : ch' = ch := some.inj ((h.chan p ch' hch').symm.trans hch)
  rcases h.waits p ch' (.inr ⟨hpk, hch', hsl⟩) with hf | ⟨c, q, hc, ho⟩
  · cases hf.symm.trans hcond
  · have hl : held K (K.lockOf ch') s c = true := (held_run hc).trans (owes_holds ho)
    rw [hfree hlk c] at hl
    cases hl

/-- One process sleeps on a channel, another one makes the condition true and wakes it; afterwards
    the locks are free and the first one is no longer asleep. -/
theorem sleep_wakeup_no_loss_pair : ∃ s : St 2 (Fin 2) Bool Unit, Reach ⟨true, fun _ => false⟩ s ∧ s.pc 0 = .sTidy () ∧
      s.cond () = true ∧ ¬ (s.state 0 = .sleeping ∧ s.chan 0 = some ()) := by
  let K : Locks Bool Unit := ⟨true, fun _ => false⟩
  let go : Fin 2 × Act 2 Unit := (0, .go)
  let l : List (Fin 2 × Act 2 Unit) :=
    List.replicate 3 go ++ (0, .wait ()) :: List.replicate 9 go ++
      (0, .signal ()) :: List.replicate 8 go
  let s0 : St 2 (Fin 2) Bool Unit := init 2 (Fin 2) Bool fun _ => false
  have hdata : (runActs K l s0).map (fun s => (s.pc 0, s.cond (), s.owner false, s.owner true)) =
        some (.sTidy (), true, none, none) := by decide +kernel
  obtain ⟨s, hs, heq⟩ := map_eq_some_iff.mp hdata
  obtain ⟨hpc, hcond, hlk, hpt⟩ : s.pc 0 = .sTidy () ∧ s.cond () = true ∧ s.owner false = none ∧
      s.owner true = none := by
    simpa only [Prod.mk.injEq] using heq
  have hr : Reach K s := ⟨_, runActs_trans K hs⟩
  exact ⟨s, hr, hpc, hcond, sleep_wakeup_no_loss hr () hlk hpt hcond 0⟩

end Xv6Sleep
