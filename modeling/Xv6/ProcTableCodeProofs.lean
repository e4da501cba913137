import Xv6.LogicalDiskProofs

/-!
# `proc.c` — the process table

The process table with `fork`, `exit`, `wait` and `kill`, and what the scheduler and `sleep` do to the state
of a process. A step is a part of the code that holds `ptable.lock` from its beginning to its end, or a
part that works on the own slot of a process (or on the slot that `allocproc` has taken for its child)
without the lock. `sleep` in `wait` does not let go of the lock before the process is asleep, so one round of
the loop of `wait` is one step. `panic("init exiting")` stops the machine.

Recorded beside the state: a number for each process that has ever been in the table (`ids`), the number of the
process that forked it, what it passed to `exit`, whether its `killed` flag was set when it became a zombie,
and what the calls have returned.
-/

namespace Xv6Proc

open Function Option

/-- A slot of `ptable.proc`. -/
abbrev Slot := Fin Xv6Kernel.NPROC

/-- `enum procstate` -/
inductive ProcState where
  | unused
  | embryo
  | sleeping
  | runnable
  | running
  | zombie
deriving DecidableEq, Repr

/-- What a process sleeps on: a slot of the table, as in `wait`, or something else. -/
inductive Chan where
  | proc (p : Slot)
  | other (c : Nat)
deriving DecidableEq, Repr

/-- `struct proc`, as far as these calls look at it. Of the kernel stack and the page table there is only
    whether the process has them. -/
structure Proc where
  kstack : Bool
  pgdir : Bool
  state : ProcState
  pid : Int32
  parent : Option Slot
  chan : Option Chan
  killed : Bool
  exitstatus : Int32
deriving DecidableEq, Repr

/-- Where a process is. -/
inductive Place where
  /-- in user space, or in another call -/
  | user
  /-- in `fork`: `allocproc` has taken the slot `np` -/
  | taken (np : Slot)
  /-- in `fork`: the child has a kernel stack -/
  | stacked (np : Slot)
  /-- in `fork`: the child has a page table and a parent -/
  | copied (np : Slot)
  /-- in `exit`, before it takes the lock -/
  | exiting
  /-- in `wait`, after it has slept -/
  | waiting
deriving DecidableEq, Repr

/-- A process as a parent sees its end. -/
structure End where
  /-- its number -/
  child : Nat
  /-- the number of the process that has forked it -/
  forker : Nat
  /-- what it passed to `exit` -/
  value : Int32
  /-- whether `killed` was set when it became a zombie -/
  struck : Bool
deriving DecidableEq, Repr

/-- What calls have returned. -/
inductive Event where
  /-- `fork` has made the process in slot `np`, with its `killed` flag -/
  | born (np : Slot) (killed : Bool)
  /-- `wait` of process `caller` has returned `pid` and the status word -/
  | reaped (caller : Nat) (pid status : Int32) (e : End)
  /-- `wait` has returned -1 -/
  | alone (havekids killed : Bool)
  /-- `kill` has returned, and has set the flag of a slot in this state -/
  | killed (pid : Int32) (hit : Option ProcState)
deriving DecidableEq, Repr

structure Sys where
  proc : Slot → Proc
  place : Slot → Place
  nextpid : Int32
  ids : Slot → Nat
  births : Nat
  forker : Slot → Nat
  value : Slot → Int32
  struck : Slot → Bool
  trace : List Event

/-- Change the slot `p`. -/
def Sys.modify (s : Sys) (p : Slot) (f : Proc → Proc) : Sys :=
  { s with proc := update s.proc p (f (s.proc p)) }

def Sys.goto (s : Sys) (p : Slot) (c : Place) : Sys := { s with place := update s.place p c }

def Sys.log (s : Sys) (e : Event) : Sys := { s with trace := e :: s.trace }

def table : List Slot := List.finRange Xv6Kernel.NPROC

/-- Wake up all processes sleeping on `chan`. -/
def wakeup1 (proc : Slot → Proc) (chan : Chan) : Slot → Proc := fun p =>
  if (proc p).state = .sleeping ∧ (proc p).chan = some chan then { proc p with state := .runnable } else proc p

/-- The part of `allocproc` under the lock. -/
def allocproc (p : Slot) (s : Sys) : Sys :=
  match table.find? fun np => (s.proc np).state = .unused with
  | none => s
  | some np =>
    let s' := (s.modify np fun q => { q with state := .embryo, pid := s.nextpid }).goto p (.taken np)
    { s' with
      nextpid := s.nextpid + 1
      ids := update s.ids np s.births
      births := s.births + 1
      forker := update s.forker np (s.ids p) }

/-- The rest of `allocproc`: the kernel stack, if `kalloc` has a page. -/
def allocStack (p np : Slot) (ok : Bool) (s : Sys) : Sys :=
  if ok then (s.modify np fun q => { q with kstack := true }).goto p (.stacked np)
  else (s.modify np fun q => { q with kstack := false, state := .unused }).goto p .user

/-- `fork` from `copyuvm` on, up to the lock. -/
def forkCopy (p np : Slot) (ok : Bool) (s : Sys) : Sys :=
  if ok then (s.modify np fun q => { q with pgdir := true, parent := some p }).goto p (.copied np)
  else (s.modify np fun q => { q with kstack := false, state := .unused }).goto p .user

/-- The end of `fork`. -/
def forkDone (p np : Slot) (s : Sys) : Sys :=
  (((s.modify np fun q => { q with state := .runnable }).goto p .user).goto np .user).log
    (.born np (s.proc np).killed)

/-- The beginning of `exit`. -/
def exitBegin (p : Slot) (v : Int32) (s : Sys) : Sys :=
  { (s.modify p fun q => { q with exitstatus := v }).goto p .exiting with
    value := update s.value p v }

/-- Pass abandoned children to init. -/
def abandon (initproc p : Slot) (proc : Slot → Proc) : Slot → Proc :=
  let proc' : Slot → Proc := fun c =>
    if (proc c).parent = some p then { proc c with parent := some initproc } else proc c
  if table.any fun c => decide ((proc c).parent = some p ∧ (proc c).state = .zombie) then
    wakeup1 proc' (.proc initproc)
  else proc'

/-- Parent might be sleeping in `wait`. -/
def wakeParent (p : Slot) (proc : Slot → Proc) : Slot → Proc :=
  match (proc p).parent with
  | some q => wakeup1 proc (.proc q)
  | none => proc

/-- `exit` under the lock. -/
def exitEnd (initproc p : Slot) (s : Sys) : Sys :=
  let proc' := abandon initproc p (wakeParent p s.proc)
  { s with
    proc := update proc' p { proc' p with state := .zombie }
    place := update s.place p .user
    struck := update s.struck p (s.proc p).killed }

/-- `wait` has found the zombie `c`. The status is put together after `killed` has been cleared. -/
def reap (p c : Slot) (s : Sys) : Sys :=
  let q := { s.proc c with
    kstack := false, pgdir := false, state := .unused, pid := 0, parent := none, killed := false }
  let status := q.exitstatus ||| (if q.killed then 0x100 else 0)
  ((s.modify c fun _ => q).goto p .user).log
    (.reaped (s.ids p) (s.proc c).pid status ⟨s.ids c, s.forker c, s.value c, s.struck c⟩)

/-- Whether the scan of `wait` finds a child. -/
def havekids (p : Slot) (s : Sys) : Bool := table.any fun c => decide ((s.proc c).parent = some p)

/-- One round of the loop of `wait`. -/
def waitRound (p : Slot) (s : Sys) : Sys :=
  match table.find? fun c => decide ((s.proc c).parent = some p ∧ (s.proc c).state = .zombie) with
  | some c => reap p c s
  | none =>
    if havekids p s = false ∨ (s.proc p).killed = true then
      (s.goto p .user).log (.alone (havekids p s) (s.proc p).killed)
    else (s.modify p fun q => { q with chan := some (.proc p), state := .sleeping }).goto p .waiting

/-- The slot that `kill` finds. -/
def target (s : Sys) (pid : Int32) : Option Slot := table.find? fun c => (s.proc c).pid = pid

def kill (pid : Int32) (s : Sys) : Sys :=
  match target s pid with
  | none => s.log (.killed pid none)
  | some c =>
    (s.modify c fun q => { q with
      killed := true
      state := if q.state = .sleeping then .runnable else q.state }).log
      (.killed pid (some (s.proc c).state))

/-- The steps. -/
inductive Act where
  /-- the scheduler takes up `p`; a process that has slept clears `chan` before it lets go of the lock -/
  | run (p : Slot)
  | yield (p : Slot)
  | sleep (p : Slot) (c : Nat)
  | wakeup (c : Nat)
  | allocproc (p : Slot)
  | allocStack (p : Slot) (ok : Bool)
  | forkCopy (p : Slot) (ok : Bool)
  | forkDone (p : Slot)
  | exit (p : Slot) (v : Int32)
  | exitEnd (p : Slot)
  | wait (p : Slot)
  | kill (p : Slot) (pid : Int32)
  /-- a trap in user space: "kill proc" -/
  | trap (p : Slot)
deriving DecidableEq

/-- The process `p` is running. -/
def Runs (s : Sys) (p : Slot) : Prop := (s.proc p).state = .running

instance (s : Sys) (p : Slot) : Decidable (Runs s p) := inferInstanceAs (Decidable ((s.proc p).state = .running))

def step (initproc : Slot) : Act → Sys → Option Sys
  | .run p, s =>
    if (s.proc p).state = .runnable then
      some (s.modify p fun q => { q with state := .running, chan := none })
    else none
  | .yield p, s => if Runs s p then some (s.modify p fun q => { q with state := .runnable }) else none
  | .sleep p c, s =>
    if Runs s p ∧ (s.place p = .user ∨ s.place p = .exiting) then
      some (s.modify p fun q => { q with chan := some (.other c), state := .sleeping })
    else none
  | .wakeup c, s => some { s with proc := wakeup1 s.proc (.other c) }
  | .allocproc p, s => if Runs s p ∧ s.place p = .user then some (allocproc p s) else none
  | .allocStack p ok, s =>
    match s.place p with
    | .taken np => if Runs s p then some (allocStack p np ok s) else none
    | _ => none
  | .forkCopy p ok, s =>
    match s.place p with
    | .stacked np => if Runs s p then some (forkCopy p np ok s) else none
    | _ => none
  | .forkDone p, s =>
    match s.place p with
    | .copied np => if Runs s p then some (forkDone p np s) else none
    | _ => none
  | .exit p v, s =>
    if Runs s p ∧ s.place p = .user ∧ p ≠ initproc then some (exitBegin p v s) else none
  | .exitEnd p, s => if Runs s p ∧ s.place p = .exiting then some (exitEnd initproc p s) else none
  | .wait p, s =>
    if Runs s p ∧ (s.place p = .user ∨ s.place p = .waiting) then some (waitRound p s) else none
  | .kill p pid, s => if Runs s p ∧ s.place p = .user then some (kill pid s) else none
  | .trap p, s =>
    if Runs s p ∧ s.place p = .user then some (s.modify p fun q => { q with killed := true }) else none

/-- The table after `userinit`: the first process is in the first slot, and runs. -/
def boot (initproc : Slot) : Sys where
  proc := fun p =>
    if p = initproc then ⟨true, true, .running, 1, none, none, false, 0⟩
    else ⟨false, false, .unused, 0, none, none, false, 0⟩
  place := fun _ => .user
  nextpid := 2
  ids := fun _ => 0
  births := 1
  forker := fun _ => 0
  value := fun _ => 0
  struck := fun _ => false
  trace := []

/-- The states of runs in which every step is `ok`. -/
inductive Reach (initproc : Slot) (ok : Act → Sys → Prop) : Sys → Prop where
  | boot : Reach initproc ok (boot initproc)
  | step {s s' : Sys} {a : Act} (h : Reach initproc ok s) (hok : ok a s) (hs : step initproc a s = some s') :
      Reach initproc ok s'

/-- Take steps one after another. -/
def steps (initproc : Slot) : List Act → Sys → Option Sys
  | [], s => some s
  | a :: as, s => (step initproc a s).bind (steps initproc as)

theorem reach_steps {initproc : Slot} {ok : Act → Sys → Prop} (as : List Act) {s s' : Sys}
    (hok : (∀ a t, a ∈ as → ok a t)) (h : Reach initproc ok s) (hr : steps initproc as s = some s') :
    Reach initproc ok s' := by
  induction as generalizing s s' with
  | nil =>
    cases hr
    exact h
  | cons a as ih =>
    obtain ⟨s1, h1, h2⟩ := bind_eq_some_iff.mp hr
    exact ih (fun b t hb => hok b t (List.mem_cons_of_mem _ hb))
      (.step h (hok a s List.mem_cons_self) h1) h2

/-! ## What a step does -/

/-- The steps with their conditions, one after another. -/
inductive Takes (initproc : Slot) (s : Sys) : Act → Sys → Prop where
  | run {p : Slot} (h : (s.proc p).state = .runnable) :
      Takes initproc s (.run p) (s.modify p fun q => { q with state := .running, chan := none })
  | yield {p : Slot} (h : Runs s p) :
      Takes initproc s (.yield p) (s.modify p fun q => { q with state := .runnable })
  | sleep {p : Slot} {c : Nat} (h : Runs s p) (hp : s.place p = .user ∨ s.place p = .exiting) :
      Takes initproc s (.sleep p c) (s.modify p fun q => { q with chan := some (.other c), state := .sleeping })
  | wakeup {c : Nat} : Takes initproc s (.wakeup c) { s with proc := wakeup1 s.proc (.other c) }
  | allocproc {p : Slot} (h : Runs s p) (hp : s.place p = .user) :
      Takes initproc s (.allocproc p) (allocproc p s)
  | allocStack {p np : Slot} {ok : Bool} (h : Runs s p) (hp : s.place p = .taken np) :
      Takes initproc s (.allocStack p ok) (allocStack p np ok s)
  | forkCopy {p np : Slot} {ok : Bool} (h : Runs s p) (hp : s.place p = .stacked np) :
      Takes initproc s (.forkCopy p ok) (forkCopy p np ok s)
  | forkDone {p np : Slot} (h : Runs s p) (hp : s.place p = .copied np) :
      Takes initproc s (.forkDone p) (forkDone p np s)
  | exit {p : Slot} {v : Int32} (h : Runs s p) (hp : s.place p = .user) (hi : p ≠ initproc) :
      Takes initproc s (.exit p v) (exitBegin p v s)
  | exitEnd {p : Slot} (h : Runs s p) (hp : s.place p = .exiting) :
      Takes initproc s (.exitEnd p) (exitEnd initproc p s)
  | wait {p : Slot} (h : Runs s p) (hp : s.place p = .user ∨ s.place p = .waiting) :
      Takes initproc s (.wait p) (waitRound p s)
  | kill {p : Slot} {pid : Int32} (h : Runs s p) (hp : s.place p = .user) :
      Takes initproc s (.kill p pid) (kill pid s)
  | trap {p : Slot} (h : Runs s p) (hp : s.place p = .user) :
      Takes initproc s (.trap p) (s.modify p fun q => { q with killed := true })

theorem step_takes {initproc : Slot} {a : Act} {s s' : Sys} (h : step initproc a s = some s') :
    Takes initproc s a s' := by
  cases a <;> simp only [step, ite_none_right_eq_some] at h
  case run p =>
    obtain ⟨hc, ⟨⟩⟩ := h
    exact .run hc
  case yield p =>
    obtain ⟨hc, ⟨⟩⟩ := h
    exact .yield hc
  case sleep p c =>
    obtain ⟨⟨hc, hp⟩, ⟨⟩⟩ := h
    exact .sleep hc hp
  case wakeup c =>
    cases h
    exact .wakeup
  case allocproc p =>
    obtain ⟨⟨hc, hp⟩, ⟨⟩⟩ := h
    exact .allocproc hc hp
  case allocStack p ok =>
    split at h
    next np hp =>
      obtain ⟨hc, ⟨⟩⟩ := ite_none_right_eq_some.mp h
      exact .allocStack hc hp
    next => cases h
  case forkCopy p ok =>
    split at h
    next np hp =>
      obtain ⟨hc, ⟨⟩⟩ := ite_none_right_eq_some.mp h
      exact .forkCopy hc hp
    next => cases h
  case forkDone p =>
    split at h
    next np hp =>
      obtain ⟨hc, ⟨⟩⟩ := ite_none_right_eq_some.mp h
      exact .forkDone hc hp
    next => cases h
  case exit p v =>
    obtain ⟨⟨hc, hp, hi⟩, ⟨⟩⟩ := h
    exact .exit hc hp hi
  case exitEnd p =>
    obtain ⟨⟨hc, hp⟩, ⟨⟩⟩ := h
    exact .exitEnd hc hp
  case wait p =>
    obtain ⟨⟨hc, hp⟩, ⟨⟩⟩ := h
    exact .wait hc hp
  case kill p pid =>
    obtain ⟨⟨hc, hp⟩, ⟨⟩⟩ := h
    exact .kill hc hp
  case trap p =>
    obtain ⟨⟨hc, hp⟩, ⟨⟩⟩ := h
    exact .trap hc hp

end Xv6Proc
