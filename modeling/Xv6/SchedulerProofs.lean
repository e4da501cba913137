import Xv6.InterleaveProofs
import Xv6.ProcTableCodeProofs

/-!
# `proc.c` — the scheduler on any number of CPUs

A CPU is in its scheduler or runs the process that its variable `proc` names. `ptable.lock` is taken by one of
the two and given up by the other, across `swtch`. A process changes its state and calls `sched` while it holds
the lock, so that the lock is free only when a CPU is done with a switch: then a process is running exactly if
one CPU has it, and only one has.

The steps are the instructions of `scheduler`, `sched`, `yield`, `sleep`, `exit`, `wakeup1`, `kill`, `allocproc`,
`fork` and `wait` that read or write the lock, `proc` or the state of a process. Which entries a
process allocates, forks or frees is left open.
-/

namespace Xv6Sched

open Function Interleave Option

open Xv6Proc (Slot ProcState)

-- some results need decidable equality of CPUs only through the machine
set_option linter.unusedSectionVars false

/-- Where a CPU is. -/
inductive Loc where
  /-- the scheduler between two rounds, with interrupts on -/
  | loop
  /-- the scheduler at entry `k` of the table, holding `ptable.lock` -/
  | scan (k : Nat)
  /-- a process, in user space or in the kernel, without `ptable.lock` -/
  | code
  /-- a process that holds `ptable.lock` -/
  | locked
  /-- a process that has changed its state, at the call of `sched` -/
  | sched
  /-- `wakeup` in an interrupt handler, holding `ptable.lock`; `true` if it interrupts a process -/
  | intr (inProc : Bool)
  | panic (msg : String)
deriving DecidableEq

/-- The CPU holds `ptable.lock` there. -/
def Loc.holds : Loc → Bool
  | .scan _ | .locked | .sched | .intr _ => true
  | _ => false

/-- A process runs there. -/
def Loc.inProc : Loc → Bool
  | .code | .locked | .sched => true
  | .intr b => b
  | _ => false

structure St (C : Type) where
  loc : C → Loc
  /-- `cpu->proc` -/
  cur : C → Option Slot
  state : Slot → ProcState
  chan : Slot → Option Nat
  lock : Option C

section Machine

variable {C : Type} [DecidableEq C]

/-- The CPU `c` goes to `l`. -/
def St.goto (s : St C) (c : C) (l : Loc) : St C := { s with loc := update s.loc c l }

/-- Change the state of one process. -/
def St.set (s : St C) (q : Slot) (x : ProcState) : St C := { s with state := update s.state q x }

def wakeup1 (s : St C) (ch : Nat) : St C :=
  { s with state := fun q =>
      if s.state q = .sleeping ∧ s.chan q = some ch then .runnable else s.state q }

/-- The steps of a CPU `c`. -/
inductive Step (s : St C) (c : C) : St C → Prop where
  /-- `scheduler`: `acquire(&ptable.lock)` -/
  | round (h : s.loc c = .loop) (hl : s.lock = none) : Step s c { s.goto c (.scan 0) with lock := some c }
  /-- `if(p->state != RUNNABLE) continue;` -/
  | skip {k : Nat} (h : s.loc c = .scan k) (hk : k < Xv6Kernel.NPROC) (hs : s.state ⟨k, hk⟩ ≠ .runnable) :
      Step s c (s.goto c (.scan (k + 1)))
  /-- `proc = p; p->state = RUNNING; swtch(...)`: the process goes on with the lock held -/
  | choose {k : Nat} (h : s.loc c = .scan k) (hk : k < Xv6Kernel.NPROC) (hs : s.state ⟨k, hk⟩ = .runnable) :
      Step s c { (s.goto c .locked).set ⟨k, hk⟩ .running with cur := update s.cur c (some ⟨k, hk⟩) }
  /-- the end of a round: `release(&ptable.lock)` -/
  | roundEnd {k : Nat} (h : s.loc c = .scan k) (hk : Xv6Kernel.NPROC ≤ k) :
      Step s c { s.goto c .loop with lock := none }
  /-- a process takes the lock: in `yield`, `sleep`, `exit`, `wait`, `wakeup`, `kill`, `fork`, `allocproc` -/
  | acquire (h : s.loc c = .code) (hl : s.lock = none) : Step s c { s.goto c .locked with lock := some c }
  | release (h : s.loc c = .locked) : Step s c { s.goto c .code with lock := none }
  /-- an interrupt whose handler calls `wakeup` -/
  | interrupt (h : s.loc c = .loop ∨ s.loc c = .code) (hl : s.lock = none) :
      Step s c { s.goto c (.intr (s.loc c).inProc) with lock := some c }
  | interruptEnd {b : Bool} (h : s.loc c = .intr b) :
      Step s c { s.goto c (if b then .code else .loop) with lock := none }
  | wakeup (ch : Nat) (h : s.loc c = .locked ∨ ∃ b, s.loc c = .intr b) : Step s c (wakeup1 s ch)
  /-- `kill` has found the process `q` -/
  | kill (q : Slot) (h : s.loc c = .locked) :
      Step s c (if s.state q = .sleeping then s.set q .runnable else s)
  | allocproc (q : Slot) (h : s.loc c = .locked) (hq : s.state q = .unused) : Step s c (s.set q .embryo)
  /-- the error exits of `allocproc` and `fork`, without the lock -/
  | giveBack (q : Slot) (h : s.loc c = .code) (hq : s.state q = .embryo) : Step s c (s.set q .unused)
  | fork (q : Slot) (h : s.loc c = .locked) (hq : s.state q = .embryo) : Step s c (s.set q .runnable)
  /-- `wait` has found the zombie `q` -/
  | reap (q : Slot) (h : s.loc c = .locked) (hq : s.state q = .zombie) : Step s c (s.set q .unused)
  | yield {p : Slot} (h : s.loc c = .locked) (hp : s.cur c = some p) :
      Step s c ((s.goto c .sched).set p .runnable)
  | sleep {p : Slot} (ch : Nat) (h : s.loc c = .locked) (hp : s.cur c = some p) :
      Step s c { (s.goto c .sched).set p .sleeping with chan := update s.chan p (some ch) }
  | exit {p : Slot} (h : s.loc c = .locked) (hp : s.cur c = some p) :
      Step s c ((s.goto c .sched).set p .zombie)
  /-- `sched`: `swtch` to the scheduler, which goes on after the entry it had chosen; `proc = 0` -/
  | swtch {p : Slot} (h : s.loc c = .sched) (hp : s.cur c = some p) (hl : s.lock = some c)
      (hs : s.state p ≠ .running) :
      Step s c { s.goto c (.scan (p.val + 1)) with cur := update s.cur c none }
  | schedLock (h : s.loc c = .sched) (hl : s.lock ≠ some c) : Step s c (s.goto c (.panic "sched ptable.lock"))
  | schedRunning {p : Slot} (h : s.loc c = .sched) (hp : s.cur c = some p) (hl : s.lock = some c)
      (hs : s.state p = .running) : Step s c (s.goto c (.panic "sched running"))

/-- After `main`: every CPU is at its scheduler, and `initproc` can run. -/
def init (C : Type) (initproc : Slot) : St C where
  loc := fun _ => .loop
  cur := fun _ => none
  state := fun p => if p = initproc then .runnable else .unused
  chan := fun _ => none
  lock := none

inductive Reach (initproc : Slot) : St C → Prop where
  | init : Reach initproc (init C initproc)
  | step {s s' : St C} {c : C} (h : Reach initproc s) (hs : Step s c s') : Reach initproc s'

/-! ## The invariant -/

/-- Who holds the lock, who runs where, and in which state. -/
structure Inv (s : St C) : Prop where
  lock : ∀ c, (s.loc c).holds = true ↔ s.lock = some c
  proc : ∀ c, (s.loc c).inProc = true ↔ (s.cur c).isSome = true
  one : ∀ c d p, s.cur c = some p → s.cur d = some p → c = d
  runs : ∀ c p, s.cur c = some p → s.loc c ≠ .sched → s.state p = .running
  changed : ∀ c p, s.cur c = some p → s.loc c = .sched →
    s.state p = .runnable ∨ s.state p = .sleeping ∨ s.state p = .zombie
  back : ∀ p, s.state p = .running → ∃ c, s.cur c = some p
  calm : ∀ c msg, s.loc c ≠ .panic msg

variable {s s' : St C} {c : C}

theorem init_inv (initproc : Slot) : Inv (init C initproc) := by
  refine ⟨fun _ => ⟨nofun, nofun⟩, fun _ => ⟨nofun, nofun⟩, nofun, nofun, nofun, fun p hp => ?_, fun _ _ => nofun⟩
  have hp' : (if p = initproc then ProcState.runnable else .unused) = .running := hp
  split at hp' <;> exact nomatch hp'

section

variable (h : Inv s)
include h

theorem Inv.holder {d : C} (hc : (s.loc c).holds = true) (hd : (s.loc d).holds = true) : d = c :=
  some.inj (((h.lock d).mp hd).symm.trans ((h.lock c).mp hc))

/-- Nobody is at `sched` while another CPU holds the lock. -/
theorem Inv.no_sched (hc : (s.loc c).holds = true) (hne : s.loc c ≠ .sched) (d : C) : s.loc d ≠ .sched := by
  intro hd
  have heq := h.holder hc (show (s.loc d).holds = true by rw [hd]; rfl)
  rw [heq] at hd
  exact hne hd

/-- Steps that change states of processes that no CPU has. -/
theorem Inv.states (h1 : s'.loc = s.loc) (h2 : s'.cur = s.cur) (h3 : s'.lock = s.lock)
    (hs : ∀ q, s'.state q = s.state q ∨ (s.state q ≠ .running ∧ s'.state q ≠ .running ∧
      ∀ d, s.loc d = .sched → s.cur d ≠ some q)) : Inv s' := by
  refine ⟨fun d => ?_, fun d => ?_, fun d e p => ?_, fun d p hp hne => ?_, fun d p hp hl => ?_, fun p hp => ?_,
    fun d msg => ?_⟩
  · rw [h1, h3]; exact h.lock d
  · rw [h1, h2]; exact h.proc d
  · rw [h2]; exact h.one d e p
  · rw [h2] at hp
    rw [h1] at hne
    have hrun := h.runs d p hp hne
    rcases hs p with heq | ⟨hno, -⟩
    · rw [heq]; exact hrun
    · exact absurd hrun hno
  · rw [h2] at hp
    rw [h1] at hl
    rcases hs p with heq | ⟨-, -, hno⟩
    · rw [heq]; exact h.changed d p hp hl
    · exact absurd hp (hno d hl)
  · rw [h2]
    rcases hs p with heq | ⟨-, hno, -⟩
    · exact h.back p (heq ▸ hp)
    · exact absurd hp hno
  · rw [h1]; exact h.calm d msg

/-- One process that is not running gets another state than running. -/
theorem Inv.set {q : Slot} {x : ProcState} (hq : s.state q ≠ .running) (hx : x ≠ .running)
    (hno : ∀ d, s.loc d = .sched → s.cur d ≠ some q) : Inv (s.set q x) := by
  refine h.states rfl rfl rfl fun r => ?_
  by_cases hr : r = q
  · subst hr
    refine .inr ⟨hq, ?_, hno⟩
    show update s.state r x r ≠ .running
    rw [update_self]
    exact hx
  · exact .inl (update_of_ne hr _ _)

theorem Inv.calm_goto {l : Loc} (hl : ∀ msg, l ≠ .panic msg) (d : C) (msg : String) :
    update s.loc c l d ≠ .panic msg := by
  rw [update_apply]
  split_ifs
  · exact hl msg
  · exact h.calm d msg

/-- Steps that move one CPU, with the lock. -/
theorem Inv.move {l : Loc} {o : Option C} (hlock : l.holds = true ↔ o = some c)
    (hothers : ∀ d, d ≠ c → (o = some d ↔ s.lock = some d)) (hproc : l.inProc = (s.loc c).inProc)
    (h1 : s.loc c ≠ .sched) (h2 : l ≠ .sched) (h3 : ∀ msg, l ≠ .panic msg) : Inv { s.goto c l with lock := o } := by
  have hhere : update s.loc c l c = l := update_self _ _ _
  have hother : ∀ d, d ≠ c → update s.loc c l d = s.loc d := fun d hd => update_of_ne hd _ _
  refine ⟨fun d => ?_, fun d => ?_, h.one, fun d p hp hne => ?_, fun d p hp hl => ?_, h.back, h.calm_goto h3⟩
  · show (update s.loc c l d).holds = true ↔ o = some d
    by_cases hd : d = c
    · rw [hd, hhere]; exact hlock
    · rw [hother d hd, hothers d hd]; exact h.lock d
  · show (update s.loc c l d).inProc = true ↔ (s.cur d).isSome = true
    by_cases hd : d = c
    · rw [hd, hhere, hproc]; exact h.proc c
    · rw [hother d hd]; exact h.proc d
  · have hne' : update s.loc c l d ≠ .sched := hne
    by_cases hd : d = c
    · rw [hd] at hp
      exact h.runs c p hp h1
    · rw [hother d hd] at hne'
      exact h.runs d p hp hne'
  · have hl' : update s.loc c l d = .sched := hl
    by_cases hd : d = c
    · rw [hd, hhere] at hl'
      exact absurd hl' h2
    · rw [hother d hd] at hl'
      exact h.changed d p hp hl'

/-- The lock is taken. -/
theorem Inv.take {l : Loc} (hl : s.lock = none) (hholds : l.holds = true)
    (hproc : l.inProc = (s.loc c).inProc) (h1 : s.loc c ≠ .sched) (h2 : l ≠ .sched) :
    Inv { s.goto c l with lock := some c } := by
  refine h.move ⟨fun _ => rfl, fun _ => hholds⟩ (fun d hd => ?_) hproc h1 h2 ?_
  · rw [hl]
    exact ⟨fun heq => absurd (some.inj heq).symm hd, nofun⟩
  · rintro msg rfl
    cases hholds

/-- The lock is given up. -/
theorem Inv.drop {l : Loc} (hc : (s.loc c).holds = true) (hholds : l.holds = false)
    (hproc : l.inProc = (s.loc c).inProc) (h1 : s.loc c ≠ .sched) (h3 : ∀ msg, l ≠ .panic msg) :
    Inv { s.goto c l with lock := none } := by
  refine h.move ⟨fun hl => ?_, nofun⟩ (fun d hd => ?_) hproc h1 ?_ h3
  · rw [hholds] at hl
    cases hl
  · rw [(h.lock c).mp hc]
    exact ⟨nofun, fun heq => absurd (some.inj heq).symm hd⟩
  · rintro rfl
    cases hholds

/-- The running process of a CPU that holds the lock changes its state. -/
theorem Inv.leave {p : Slot} {x : ProcState} (hl : s.loc c = .locked) (hp : s.cur c = some p)
    (hx : x = .runnable ∨ x = .sleeping ∨ x = .zombie) : Inv ((s.goto c .sched).set p x) := by
  have hno := h.no_sched (c := c) (by rw [hl]; rfl) (by rw [hl]; decide)
  have hhere : update s.loc c Loc.sched c = .sched := update_self _ _ _
  have hother : ∀ d, d ≠ c → update s.loc c Loc.sched d = s.loc d :=
    fun d hd => update_of_ne hd _ _
  have hxr : x ≠ .running := by rcases hx with rfl | rfl | rfl <;> decide
  refine ⟨owner_same h.lock (by rw [hl]; rfl), fun d => ?_, h.one, fun d q hq hne => ?_, fun d q hq hd => ?_,
    fun q hq => ?_, h.calm_goto nofun⟩
  · show (update s.loc c Loc.sched d).inProc = true ↔ (s.cur d).isSome = true
    by_cases hd : d = c
    · rw [hd, hhere, ← h.proc c, hl]
      exact ⟨fun _ => rfl, fun _ => rfl⟩
    · rw [hother d hd]; exact h.proc d
  · have hne' : update s.loc c Loc.sched d ≠ .sched := hne
    have hd : d ≠ c := fun heq => hne' (heq ▸ hhere)
    rw [hother d hd] at hne'
    have hqp : q ≠ p := fun heq => hd (h.one d c p (heq ▸ hq) hp)
    show update s.state p x q = .running
    rw [update_of_ne hqp]
    exact h.runs d q hq hne'
  · have hd' : update s.loc c Loc.sched d = .sched := hd
    by_cases hdc : d = c
    · subst hdc
      obtain rfl : q = p := some.inj (hq.symm.trans hp)
      show update s.state q x q = _ ∨ _
      rw [update_self]
      show x = .runnable ∨ update s.state q x q = .sleeping ∨ update s.state q x q = .zombie
      rw [update_self]
      exact hx
    · rw [hother d hdc] at hd'
      exact absurd hd' (hno d)
  · have hq' : update s.state p x q = .running := hq
    rw [update_apply] at hq'
    split_ifs at hq'
    · exact absurd hq' hxr
    · exact h.back q hq'

theorem Inv.cur_none (hc : (s.loc c).inProc = false) : s.cur c = none := by
  cases hcur : s.cur c with
  | none => rfl
  | some p =>
    have hin := (h.proc c).mpr (by rw [hcur]; rfl)
    rw [hc] at hin
    cases hin

/-- The scheduler switches to a process. -/
theorem Inv.choose {k : Nat} (hl : s.loc c = .scan k) {p : Slot} (hp : s.state p = .runnable) :
    Inv { (s.goto c .locked).set p .running with cur := update s.cur c (some p) } := by
  have hno := h.no_sched (c := c) (by rw [hl]; rfl) (by rw [hl]; exact nofun)
  have hnone : s.cur c = none := h.cur_none (by rw [hl]; rfl)
  have hloc : update s.loc c Loc.locked c = .locked := update_self _ _ _
  have hloc' : ∀ d, d ≠ c → update s.loc c Loc.locked d = s.loc d := fun d hd => update_of_ne hd _ _
  have hcur : update s.cur c (some p) c = some p := update_self _ _ _
  have hcur' : ∀ d, d ≠ c → update s.cur c (some p) d = s.cur d := fun d hd => update_of_ne hd _ _
  -- a process that can be chosen is on no CPU
  have hfree : ∀ d, s.cur d ≠ some p := fun d hd => nomatch hp.symm.trans (h.runs d p hd (hno d))
  refine ⟨owner_same h.lock (by rw [hl]; rfl), fun d => ?_, fun d e q hd he => ?_, fun d q hq _ => ?_,
    fun d q _ hd => ?_, fun q hq => ?_,
    h.calm_goto nofun⟩
  · show (update s.loc c Loc.locked d).inProc = true ↔ (update s.cur c (some p) d).isSome = true
    by_cases hd : d = c
    · rw [hd, hloc, hcur]
      exact ⟨fun _ => rfl, fun _ => rfl⟩
    · rw [hloc' d hd, hcur' d hd]; exact h.proc d
  · have hd' : update s.cur c (some p) d = some q := hd
    have he' : update s.cur c (some p) e = some q := he
    by_cases hdc : d = c <;> by_cases hec : e = c
    · rw [hdc, hec]
    · rw [hdc, hcur] at hd'
      rw [hcur' e hec, ← hd'] at he'
      exact absurd he' (hfree e)
    · rw [hec, hcur] at he'
      rw [hcur' d hdc, ← he'] at hd'
      exact absurd hd' (hfree d)
    · rw [hcur' d hdc] at hd'
      rw [hcur' e hec] at he'
      exact h.one d e q hd' he'
  · have hq' : update s.cur c (some p) d = some q := hq
    show update s.state p .running q = .running
    by_cases hdc : d = c
    · rw [hdc, hcur] at hq'
      rw [← some.inj hq', update_self]
    · rw [hcur' d hdc] at hq'
      have hqp : q ≠ p := fun heq => hfree d (heq ▸ hq')
      rw [update_of_ne hqp]
      exact h.runs d q hq' (hno d)
  · have hd' : update s.loc c Loc.locked d = .sched := hd
    by_cases hdc : d = c
    · rw [hdc, hloc] at hd'
      cases hd'
    · rw [hloc' d hdc] at hd'
      exact absurd hd' (hno d)
  · have hq' : update s.state p .running q = .running := hq
    by_cases hqp : q = p
    · exact ⟨c, hqp ▸ hcur⟩
    · rw [update_of_ne hqp] at hq'
      obtain ⟨d, hd⟩ := h.back q hq'
      have hdc : d ≠ c := by
        rintro rfl
        cases hnone.symm.trans hd
      exact ⟨d, (hcur' d hdc).trans hd⟩

/-- A process switches to the scheduler. -/
theorem Inv.swtch {p : Slot} (hl : s.loc c = .sched) (hp : s.cur c = some p) (k : Nat) :
    Inv { s.goto c (.scan k) with cur := update s.cur c none } := by
  have hloc : update s.loc c (Loc.scan k) c = .scan k := update_self _ _ _
  have hloc' : ∀ d, d ≠ c → update s.loc c (Loc.scan k) d = s.loc d :=
    fun d hd => update_of_ne hd _ _
  have hcur' : ∀ d q, update s.cur c none d = some q → d ≠ c ∧ s.cur d = some q := by
    intro d q hq
    rw [update_apply] at hq
    split_ifs at hq with hd
    exact ⟨hd, hq⟩
  refine ⟨owner_same h.lock (by rw [hl]; rfl), fun d => ?_, fun d e q hd he => ?_, fun d q hq hne => ?_,
    fun d q hq hd => ?_, fun q hq => ?_,
    h.calm_goto nofun⟩
  · show (update s.loc c (Loc.scan k) d).inProc = true ↔ (update s.cur c none d).isSome = true
    by_cases hd : d = c
    · rw [hd, hloc, update_self]
      exact ⟨nofun, nofun⟩
    · rw [hloc' d hd, update_of_ne hd]; exact h.proc d
  · exact h.one d e q (hcur' d q hd).2 (hcur' e q he).2
  · obtain ⟨hdc, hq'⟩ := hcur' d q hq
    have hne' : update s.loc c (Loc.scan k) d ≠ .sched := hne
    rw [hloc' d hdc] at hne'
    exact h.runs d q hq' hne'
  · obtain ⟨hdc, hq'⟩ := hcur' d q hq
    have hd' : update s.loc c (Loc.scan k) d = .sched := hd
    rw [hloc' d hdc] at hd'
    exact h.changed d q hq' hd'
  · obtain ⟨d, hd⟩ := h.back q hq
    have hdc : d ≠ c := by
      rintro rfl
      obtain rfl : p = q := some.inj (hp.symm.trans hd)
      have hrun : s.state p = .running := hq
      rcases h.changed d p hp hl with hx | hx | hx <;> exact nomatch hrun.symm.trans hx
    exact ⟨d, (update_of_ne hdc _ _).trans hd⟩

/-- At the call of `sched` the lock is held and the state has been changed. -/
theorem Inv.at_sched (hl : s.loc c = .sched) : s.lock = some c ∧ ∃ p, s.cur c = some p ∧ s.state p ≠ .running := by
  refine ⟨(h.lock c).mp (by rw [hl]; rfl), ?_⟩
  obtain ⟨p, hp⟩ := isSome_iff_exists.mp ((h.proc c).mp (by rw [hl]; rfl))
  refine ⟨p, hp, fun hr => ?_⟩
  rcases h.changed c p hp hl with hx | hx | hx <;> exact nomatch hr.symm.trans hx

/-- **Every step keeps the invariant.** -/
theorem step_inv (hs : Step s c s') : Inv s' := by
  -- a CPU that holds the lock elsewhere than at `sched`
  have hno : ∀ {l : Loc}, s.loc c = l → l.holds = true → l ≠ .sched → ∀ q d, s.loc d = .sched → s.cur d ≠ some q :=
    fun hl hh hne _ d hd => absurd hd (h.no_sched (c := c) (by rw [hl]; exact hh) (by rw [hl]; exact hne) d)
  cases hs with
  | round hl hlock | acquire hl hlock => exact h.take hlock rfl (by rw [hl]; rfl) (by rw [hl]; decide) (by decide)
  | @skip k hl hk hs =>
    have hlock := (h.lock c).mp (by rw [hl]; rfl)
    have := h.move (c := c) (l := .scan (k + 1)) (o := s.lock) ⟨fun _ => hlock, fun _ => rfl⟩ (fun _ _ => Iff.rfl)
      (by rw [hl]; rfl) (by rw [hl]; exact nofun) nofun (fun _ => nofun)
    exact this
  | choose hl hk hp => exact h.choose hl hp
  | roundEnd hl hk => exact h.drop (by rw [hl]; rfl) rfl (by rw [hl]; rfl) (by rw [hl]; exact nofun) (fun _ => nofun)
  | release hl => exact h.drop (by rw [hl]; rfl) rfl (by rw [hl]; rfl) (by rw [hl]; decide) (fun _ => nofun)
  | interrupt hl hlock =>
    refine h.take hlock rfl rfl ?_ nofun
    rcases hl with hl | hl <;> rw [hl] <;> decide
  | @interruptEnd b hl =>
    refine h.drop (by rw [hl]; rfl) ?_ ?_ (by rw [hl]; exact nofun) ?_
    · cases b <;> rfl
    · rw [hl]
      cases b <;> rfl
    · cases b <;> exact fun _ => nofun
  | wakeup ch hl =>
    refine h.states rfl rfl rfl fun q => ?_
    by_cases hw : s.state q = .sleeping ∧ s.chan q = some ch
    · refine .inr ⟨by rw [hw.1]; decide, ?_, ?_⟩
      · show (if s.state q = .sleeping ∧ s.chan q = some ch then ProcState.runnable else s.state q) ≠ .running
        rw [if_pos hw]
        decide
      · rcases hl with hl | ⟨b, hl⟩
        · exact hno hl rfl (by decide) q
        · exact hno hl rfl nofun q
    · exact .inl (if_neg hw)
  | kill q hl =>
    split_ifs with hq
    · exact h.set (by rw [hq]; decide) (by decide) (hno hl rfl (by decide) q)
    · exact h
  | allocproc q hl hq | fork q hl hq | reap q hl hq =>
    exact h.set (by rw [hq]; decide) (by decide) (hno hl rfl (by decide) q)
  | giveBack q hl hq =>
    refine h.set (by rw [hq]; decide) (by decide) fun d hd hcur => ?_
    -- a process at `sched` is no embryo
    rcases h.changed d q hcur hd with hx | hx | hx <;> exact nomatch hq.symm.trans hx
  | yield hl hp => exact h.leave hl hp (.inl rfl)
  | sleep ch hl hp =>
    have hleave := h.leave (x := .sleeping) hl hp (.inr (.inl rfl))
    exact ⟨hleave.lock, hleave.proc, hleave.one, hleave.runs, hleave.changed, hleave.back, hleave.calm⟩
  | exit hl hp => exact h.leave hl hp (.inr (.inr rfl))
  | swtch hl hp _ _ => exact h.swtch hl hp _
  | schedLock hl hlock => exact absurd (h.at_sched hl).1 hlock
  | schedRunning hl hp _ hr =>
    obtain ⟨-, q, hq, hne⟩ := h.at_sched hl
    obtain rfl := some.inj (hp.symm.trans hq)
    exact absurd hr hne

end

theorem reach_inv {initproc : Slot} (h : Reach initproc s) : Inv s := by
  induction h with
  | init => exact init_inv initproc
  | step _ hs ih => exact step_inv ih hs

/-- **A process runs on at most one CPU**, for any number of CPUs and any interleaving of their steps. When
    `ptable.lock` is free, a process is running exactly if one CPU has it as its current process, and the current
    process of a CPU is in no other state; at the call of `sched` the CPU holds the lock and its process has
    changed its state, so that `sched` does not panic. -/
theorem one_cpu {initproc : Slot} (h : Reach initproc s) :
    (s.lock = none → (∀ p, s.state p = .running ↔ ∃! c, s.cur c = some p) ∧
      ∀ c p, s.cur c = some p → s.state p ≠ .runnable ∧ s.state p ≠ .sleeping ∧ s.state p ≠ .zombie ∧
        s.state p ≠ .unused) ∧
    (∀ c, s.loc c = .sched → s.lock = some c ∧ ∃ p, s.cur c = some p ∧ s.state p ≠ .running) ∧
    (∀ c msg, s.loc c ≠ .panic msg) := by
  have hi := reach_inv h
  have hrun : s.lock = none → ∀ c p, s.cur c = some p → s.state p = .running := by
    intro hlock c p hp
    refine hi.runs c p hp fun hl => ?_
    cases hlock.symm.trans (hi.at_sched hl).1
  refine ⟨fun hlock => ⟨fun p => ⟨fun hp => ?_, fun ⟨c, hc, _⟩ => hrun hlock c p hc⟩, fun c p hp => ?_⟩,
    fun c hl => hi.at_sched hl, hi.calm⟩
  · obtain ⟨c, hc⟩ := hi.back p hp
    exact ⟨c, hc, fun d hd => hi.one d c p hd hc⟩
  · rw [hrun hlock c p hp]
    decide

end Machine

/-- The first process runs on one of two CPUs. -/
theorem one_cpu_first : ∃ s : St Bool, s.lock = none ∧ ∃! c, s.cur c = some (⟨0, by decide⟩ : Slot) := by
  have h0 : Reach ⟨0, by decide⟩ (init Bool ⟨0, by decide⟩) := .init
  have h1 := h0.step (.round (c := true) rfl rfl)
  have h2 := h1.step (.choose (c := true) rfl (by decide) rfl)
  have h3 := h2.step (.release (c := true) rfl)
  exact ⟨_, rfl, (((one_cpu h3).1 rfl).1 _).mp rfl⟩

end Xv6Sched
