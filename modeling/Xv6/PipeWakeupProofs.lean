import Xv6.PipeQueueProofs

/-!
# Sleepers on a pipe

A reader that has gone to sleep found the pipe empty and open for writing; a writer that has
gone to sleep found it full and open for reading. Whoever makes the one or the other false holds
the lock and, on every exit but one, wakes the sleepers before giving the lock up. The exception
is the exit of `pipewrite` that returns `-1`: it is taken with the pipe full, and the readers are
not woken for the bytes that the call has already stored. In the runs in which no reader is
asleep when that exit is taken, no wakeup is lost.
-/

namespace Xv6Pipe

open Interleave RingBuffer Function Option

variable {P : Type} {c : Pc P}

/-! ## Regions -/

theorem owesR_lock (h : c.kind.owesR = true) : c.kind.lock = true := by
  cases c <;> first | rfl | exact nomatch h

theorem owesW_lock (h : c.kind.owesW = true) : c.kind.lock = true := by
  cases c <;> first | rfl | exact nomatch h

theorem owesR_awake (h : c.kind.owesR = true) : c.kind.rwait = false := by
  cases c <;> first | rfl | exact nomatch h

theorem owesW_awake (h : c.kind.owesW = true) : c.kind.wwait = false := by
  cases c <;> first | rfl | exact nomatch h

/-- After `wakeup(&p->nread)` a process that is still on its way to sleep holds a lock. -/
theorem rwait_awakeR (h : (awakeR c).kind.rwait = true) : c.kind.lock = true ∨ c.kind.plock = true := by
  cases c <;> first | exact .inl rfl | exact .inr rfl | exact nomatch h

theorem wwait_awakeW (h : (awakeW c).kind.wwait = true) : c.kind.lock = true ∨ c.kind.plock = true := by
  cases c <;> first | exact .inl rfl | exact .inr rfl | exact nomatch h

/-! ## The waiters -/

/-- Why a reader may sleep: there is nothing to read, or the holder of the lock will wake it. -/
def ReadersWait (s : St P) : Prop :=
  ∀ q, (s.pc q).kind.rwait = true → (s.pipe.empty ∧ s.pipe.writeopen = true) ∨ ∃ r, (s.pc r).kind.owesR = true

/-- Why a writer may sleep. -/
def WritersWait (s : St P) : Prop :=
  ∀ q, (s.pc q).kind.wwait = true → (s.pipe.full ∧ s.pipe.readopen = true) ∨ ∃ r, (s.pc r).kind.owesW = true

variable [DecidableEq P] {p q : P} {a : Act P} {s s' : St P}

/-- Both are of one form: the reason `R` to sleep, or a process that owes the wakeup. -/
def Waits (W O : Kind → Bool) (R : Prop) (s : St P) : Prop :=
  ∀ q, W (s.pc q).kind = true → R ∨ ∃ r, O (s.pc r).kind = true

section Waits

variable {W O : Kind → Bool} {R T : Prop}

omit [DecidableEq P] in
theorem Waits.keep (h : Waits W O R s) (hw : ∀ q, q ≠ p → W (s'.pc q).kind = true → W (s.pc q).kind = true)
    (ho : ∀ q, q ≠ p → O (s'.pc q).kind = O (s.pc q).kind) (hwhy : R → T) {k : Kind}
    (hk : (s'.pc p).kind = k) (hwait : W k = true → W (s.pc p).kind = true)
    (howes : O (s.pc p).kind = true → O k = true) : Waits W O T s' := by
  intro q hq
  have hq0 : W (s.pc q).kind = true := by
    by_cases hqp : q = p
    · subst hqp; rw [hk] at hq; exact hwait hq
    · exact hw q hqp hq
  rcases h q hq0 with hx | ⟨r, hr⟩
  · exact .inl (hwhy hx)
  · refine .inr ⟨r, ?_⟩
    by_cases hrp : r = p
    · subst hrp; rw [hk]; exact howes hr
    · rw [ho r hrp]; exact hr

/-- The holder of the lock owes nothing, so the pipe is as a sleeper found it. -/
theorem Waits.found (h : Waits W O R s) (hi : Inv s) (hlock : ∀ {c : Pc P}, O c.kind = true → c.kind.lock = true)
    (hl : (s.pc p).kind.lock = true) (ho : O (s.pc p).kind = false) (hq : W (s.pc q).kind = true) : R := by
  rcases h q hq with hx | ⟨r, hr⟩
  · exact hx
  · rw [hi.lock.unique (hlock hr) hl, ho] at hr
    cases hr

omit [DecidableEq P] in
/-- Nobody but `p` waited, and `p` does not. -/
theorem Waits.nobody (hw : ∀ q, q ≠ p → W (s'.pc q).kind = true → W (s.pc q).kind = true)
    (hall : ∀ q, W (s.pc q).kind ≠ true) (hp : W (s'.pc p).kind = false) : Waits W O T s' := by
  intro q hq
  by_cases hqp : q = p
  · subst hqp; exact absurd (hp.symm.trans hq) (by decide)
  · exact absurd (hw q hqp hq) (hall q)

/-- The others are woken or hold a lock that `p` holds; so only `p` itself can be waiting. -/
theorem Waits.wakeup (h : Waits W O R s) (hi : Inv s) (hlock : ∀ {c : Pc P}, O c.kind = true → c.kind.lock = true)
    (hawake : ∀ {c : Pc P}, O c.kind = true → W c.kind = false) (hl : (s.pc p).kind.lock = true)
    (hpl : (s.pc p).kind.plock = true) {f : Pc P → Pc P}
    (hf : ∀ {c : Pc P}, W (f c).kind = true → c.kind.lock = true ∨ c.kind.plock = true) {c : Pc P}
    (hc : W c.kind = W (s.pc p).kind) (hpc : s'.pc = update (fun q => f (s.pc q)) p c) : Waits W O R s' := by
  intro q hq
  left
  rw [hpc] at hq
  have hqp : q = p := by
    by_contra hne
    rw [update_of_ne hne] at hq
    rcases hf hq with hlq | hpq
    · exact hne (hi.lock.unique hlq hl)
    · exact hne (hi.plock.unique hpq hpl)
  subst hqp
  rw [update_self, hc] at hq
  refine h.found hi hlock hl ?_ hq
  cases hb : O (s.pc q).kind with
  | false => rfl
  | true => exact absurd (hq.symm.trans (hawake hb)) (by decide)

theorem kind_update {f : P → Pc P} {c : Pc P} {k : Kind} (hk : c.kind = k) : (update f p c p).kind = k := by
  rw [update_self]
  exact hk

end Waits

/-- The step does not take the `-1` exit of `pipewrite` while a reader sleeps or is about to. -/
def Safe (p : P) (s : St P) : Prop :=
  ∀ buf i, s.pc p = .wCheck buf i → s.pipe.readopen = false ∨ s.killed p = true → ∀ q, (s.pc q).kind.rwait = false

theorem step_readersWait (h : ReadersWait s) (hi : Inv s) (hsafe : Safe p s) (he : Effect p s s') : ReadersWait s' := by
  have hwaits := fun q (hq : q ≠ p) => (he.others hq).rwait
  have hkeep := Waits.keep h hwaits (T := s'.pipe.empty ∧ s'.pipe.writeopen = true)
    fun q hq => (he.others hq).owesR
  cases he with
  | move hk _ _ _ | pacq _ _ hk _ _ _ | sleep _ hk _ _ _ =>
    exact hkeep id (kind_update hk) id id
  | @fail buf i hpc hc =>
    exact Waits.nobody hwaits (fun q => Bool.eq_false_iff.mp (hsafe buf i hpc hc q)) (congrArg Kind.rwait (kind_update rfl))
  | waitW hpc _ _ _ =>
    exact hkeep id (kind_update rfl) nofun (fun _ => rfl)
  | @waitR n hpc hempty hopen => exact fun q _ => .inl ⟨hempty, hopen⟩
  | take hpc _ | @kill t hpc =>
    exact hkeep id (kind_update rfl) nofun (fun ho => by rw [hpc] at ho; exact nomatch ho)
  | acq _ hk0 hk _ _ _ =>
    exact hkeep id (kind_update hk) nofun (fun ho => by rw [hk0] at ho; exact nomatch ho)
  | rel _ hr _ hk _ _ =>
    exact hkeep id (kind_update hk) id (fun ho => by rw [hr] at ho; exact nomatch ho)
  | leave hk _ =>
    exact hkeep id (kind_update rfl) nofun (fun ho => by rw [hk] at ho; exact nomatch ho)
  | wakeR hl hpl _ hk _ _ _ =>
    exact Waits.wakeup h hi owesR_lock owesR_awake hl hpl rwait_awakeR (by rw [hk]) rfl
  | wakeW _ _ hr hk _ _ _ =>
    exact hkeep id (kind_update (f := fun r => awakeW (s.pc r)) hk) id (fun ho => by rw [hr] at ho; exact nomatch ho)
  | @store buf i hpc _ _ =>
    exact fun q _ => .inr ⟨p, congrArg Kind.owesR (kind_update rfl)⟩
  | @copy n i hpc hsome =>
    refine Waits.nobody hwaits (fun q hq => ?_) (congrArg Kind.rwait (kind_update rfl))
    exact hsome (Waits.found h hi owesR_lock (p := p) (by rw [hpc]; rfl) (by rw [hpc]; rfl) hq).1
  | @close w hpc =>
    cases w with
    | true =>
      exact fun q _ => .inr ⟨p, congrArg Kind.owesR (kind_update rfl)⟩
    | false =>
      exact hkeep id (kind_update rfl) nofun (fun ho => by rw [hpc] at ho; exact nomatch ho)

theorem step_writersWait (h : WritersWait s) (hi : Inv s) (he : Effect p s s') : WritersWait s' := by
  have hwaits := fun q (hq : q ≠ p) => (he.others hq).wwait
  have hkeep := Waits.keep h hwaits (T := s'.pipe.full ∧ s'.pipe.readopen = true)
    fun q hq => (he.others hq).owesW
  cases he with
  | move hk _ _ _ | pacq _ _ hk _ _ _ | sleep _ hk _ _ _ =>
    exact hkeep id (kind_update hk) id id
  | fail hpc _ | waitR hpc _ _ | take hpc _ | @kill t hpc =>
    exact hkeep id (kind_update rfl) nofun (fun ho => by rw [hpc] at ho; exact nomatch ho)
  | waitW hpc hfull hopen _ => exact fun q _ => .inl ⟨hfull, hopen⟩
  | acq _ hk0 hk _ _ _ =>
    exact hkeep id (kind_update hk) nofun (fun ho => by rw [hk0] at ho; exact nomatch ho)
  | rel _ _ hw0 hk _ _ =>
    exact hkeep id (kind_update hk) id (fun ho => by rw [hw0] at ho; exact nomatch ho)
  | leave hk _ =>
    exact hkeep id (kind_update rfl) nofun (fun ho => by rw [hk] at ho; exact nomatch ho)
  | wakeR _ _ hw0 hk _ _ _ =>
    exact hkeep id (kind_update (f := fun r => awakeR (s.pc r)) hk) id (fun ho => by rw [hw0] at ho; exact nomatch ho)
  | wakeW hl hpl _ hk _ _ _ =>
    exact Waits.wakeup h hi owesW_lock owesW_awake hl hpl wwait_awakeW (by rw [hk]) rfl
  | @store buf i hpc hroom _ =>
    refine Waits.nobody hwaits (fun q hq => ?_) (congrArg Kind.wwait (kind_update rfl))
    exact hroom (Waits.found h hi owesW_lock (p := p) (by rw [hpc]; rfl) (by rw [hpc]; rfl) hq).1
  | @copy n i hpc hsome =>
    exact fun q _ => .inr ⟨p, congrArg Kind.owesW (kind_update rfl)⟩
  | @close w hpc =>
    cases w with
    | true =>
      exact hkeep id (kind_update rfl) nofun (fun ho => by rw [hpc] at ho; exact nomatch ho)
    | false =>
      exact fun q _ => .inr ⟨p, congrArg Kind.owesW (kind_update rfl)⟩

/-! ## Runs -/

/-- A step that is safe in the state it starts from. -/
def SafeStep (s s' : St P) : Prop := ∃ p a, step p a s = some s' ∧ Safe p s

/-- A state that some interleaving of safe steps leads to. -/
def SafeReach (s : St P) : Prop := ∃ data, Relation.ReflTransGen SafeStep (init P data) s

/-- No process sleeps on a pipe that has what it waits for, or whose other end is closed. -/
def NoLostWakeup (s : St P) : Prop :=
  s.lock = none → ∀ q, (∀ n, s.pc q = .rSleeping n → s.pipe.empty ∧ s.pipe.writeopen = true) ∧
    (∀ buf i, s.pc q = .wSleeping buf i → s.pipe.full ∧ s.pipe.readopen = true)

theorem safeReach_waits (h : SafeReach s) : Inv s ∧ ReadersWait s ∧ WritersWait s := by
  obtain ⟨data, hrun⟩ := h
  refine run_inv (I := fun s => Inv s ∧ ReadersWait s ∧ WritersWait s)
    ⟨inv_init data, fun _ hq => Bool.noConfusion hq, fun _ hq => Bool.noConfusion hq⟩ ?_ hrun
  rintro s1 s2 ⟨hi, hr, hw⟩ ⟨q, b, hs, hsafe⟩
  have he := step_effect (hi.facts q) (hi.inside q) hs
  exact ⟨step_inv hi hs, step_readersWait hr hi hsafe he, step_writersWait hw hi he⟩

/-- **No wakeup is lost in a run of safe steps.** -/
theorem no_lost_wakeup (h : SafeReach s) : NoLostWakeup s := by
  obtain ⟨hi, hr, hw⟩ := safeReach_waits h
  intro hfree q
  have hlock := hi.lock
  rw [hfree] at hlock
  constructor
  · intro n hq
    rcases hr q (by rw [hq]; rfl) with hx | ⟨r, ho⟩
    · exact hx
    · exact absurd ((hlock.free r).symm.trans (owesR_lock ho)) (by decide)
  · intro buf i hq
    rcases hw q (by rw [hq]; rfl) with hx | ⟨r, ho⟩
    · exact hx
    · exact absurd ((hlock.free r).symm.trans (owesW_lock ho)) (by decide)

/-- Run a list of steps, each taken with the read end open by a process that is not killed. -/
def runSafe : List (P × Act P) → St P → Option (St P)
  | [], s => some s
  | (p, a) :: l, s =>
    if s.pipe.readopen = true ∧ s.killed p = false then (step p a s).bind (runSafe l) else none

theorem runSafe_trans {l : List (P × Act P)} {s s' : St P} (h : runSafe l s = some s') :
    Relation.ReflTransGen SafeStep s s' := by
  refine run_of_tests (fun _ => rfl) (fun _ _ _ => rfl) (fun x s s' hc h => ⟨x.1, x.2, h, ?_⟩) h
  rintro buf i - (hro | hk)
  · exact absurd (hc.1.symm.trans hro) (by decide)
  · exact absurd (hc.2.symm.trans hk) (by decide)

/-- A reader sleeps on an empty pipe. -/
theorem no_lost_wakeup_reader : ∃ s : St (Fin 2), SafeReach s ∧ s.pc 1 = .rSleeping 4 ∧ NoLostWakeup s := by
  let l : List (Fin 2 × Act (Fin 2)) := (1, .read 4) :: List.replicate 6 (1, .go)
  have hsome : (runSafe l (init (Fin 2) fun _ => 0)).isSome = true := by decide
  obtain ⟨s, hs⟩ := isSome_iff_exists.mp hsome
  have hr : SafeReach s := ⟨_, runSafe_trans hs⟩
  have hp : (runSafe l (init (Fin 2) fun _ => 0)).map (·.pc 1) = some (.rSleeping 4) := by decide
  rw [hs] at hp
  exact ⟨s, hr, some.inj hp, no_lost_wakeup hr⟩

/-! ## The exit that wakes nobody -/

/-- **The lost wakeup.** A reader sleeps on the empty pipe. A writer of 513 bytes, which another
    process has killed, fills the pipe and returns `-1`. The reader sleeps on a pipe that holds
    512 bytes, and nobody holds the pipe's lock. -/
theorem killed_writer_strands_reader : ∃ s : St (Fin 3), Reach s ∧ s.lock = none ∧ s.pc 1 = .rSleeping 1 ∧
      s.pipe.ring.nread ≠ s.pipe.ring.nwrite := by
  -- the reader goes to sleep, the writer is killed, stores 512 bytes in three steps each, and leaves in four
  let acts : List (Fin 3 × Act (Fin 3)) := (1, .read 1) :: List.replicate 6 (1, .go) ++ [(2, .kill 0), (2, .go), (2, .go)] ++
    (0, .write (List.replicate 513 0)) :: (0, .go) :: List.replicate 1540 (0, .go)
  have hrun : (runActs acts (init (Fin 3) fun _ => 0)).map (fun s => (s.lock, s.pc 1,
      decide (s.pipe.ring.nread = s.pipe.ring.nwrite))) = some (none, .rSleeping 1, false) := by
    decide +kernel
  obtain ⟨s, hs, hdata⟩ := map_eq_some_iff.mp hrun
  obtain ⟨hlock, hpc, hne⟩ : s.lock = none ∧ s.pc 1 = .rSleeping 1 ∧
      decide (s.pipe.ring.nread = s.pipe.ring.nwrite) = false := by
    simpa only [Prod.mk.injEq] using hdata
  exact ⟨s, ⟨_, runActs_trans hs⟩, hlock, hpc, of_decide_eq_false hne⟩

end Xv6Pipe
