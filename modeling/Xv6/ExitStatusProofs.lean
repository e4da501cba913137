import Xv6.ProcMovesProofs

/-!
# What `wait` reports, and whom `kill` reaches

`exit` stores its argument, and `wait` hands that word on as it is: it clears `killed` before it looks at
it, so the bit 0x100 for a killed child is never added. The C library takes a status word apart as a shifted
exit value with a signal number in the low bits, which the kernel does not put together.

`kill` looks for a `pid` in all slots of the table, also the unused ones: an unused slot has the `pid` 0 after
`wait` has cleaned it up, and that of a process which `fork` could not finish otherwise. A flag that is set
there stays set, and the next process in the slot is born with it.
-/

namespace Xv6Proc

open Function List Option

/-! ## Exit values -/

/-- The status word of a child that has been reaped is what it passed to `exit`. -/
structure Values (s : Sys) : Prop where
  stored : ∀ p, (s.proc p).exitstatus = s.value p
  reported : ∀ caller pid status e, Event.reaped caller pid status e ∈ s.trace → status = e.value

theorem takes_values {initproc : Slot} {a : Act} {s s' : Sys} (h : Values s) (ht : Takes initproc s a s') :
    Values s' := by
  -- steps that only change other fields of one slot
  have hmod : ∀ (p : Slot) (q : Proc), q.exitstatus = (s.proc p).exitstatus →
      ∀ c, (update s.proc p q c).exitstatus = s.value c :=
    fun p q hq c => (update_field Proc.exitstatus hq c).trans (h.stored c)
  have hnew : ∀ e, (∀ caller pid status x, e ≠ Event.reaped caller pid status x) →
      ∀ caller pid status x, Event.reaped caller pid status x ∈ e :: s.trace → status = x.value := by
    intro e he caller pid status x hx
    rcases mem_cons.mp hx with hx | hx
    · exact absurd hx.symm (he _ _ _ _)
    · exact h.reported _ _ _ _ hx
  cases ht with
  | run | yield | sleep | trap => exact ⟨hmod _ _ rfl, h.reported⟩
  | wakeup =>
    exact ⟨fun c => (wakeup1_field Proc.exitstatus (fun _ => rfl) _ c).trans (h.stored c), h.reported⟩
  | @allocproc p =>
    rw [allocproc]
    split
    · exact h
    · exact ⟨hmod _ _ rfl, h.reported⟩
  | @allocStack p np ok | @forkCopy p np ok =>
    cases ok with
    | true => exact ⟨hmod _ _ rfl, h.reported⟩
    | false => exact ⟨hmod _ _ rfl, h.reported⟩
  | forkDone => exact ⟨hmod _ _ rfl, hnew _ fun _ _ _ _ h => by cases h⟩
  | @exit p v =>
    refine ⟨fun c => ?_, h.reported⟩
    show (update s.proc p _ c).exitstatus = update s.value p v c
    by_cases hc : c = p
    · rw [hc, update_self, update_self]
    · rw [update_of_ne hc, update_of_ne hc]
      exact h.stored c
  | @exitEnd p =>
    exact ⟨fun c => (exitEnd_field Proc.exitstatus (fun _ _ => rfl) (fun _ _ => rfl) c).trans (h.stored c), h.reported⟩
  | @wait p =>
    rw [waitRound]
    split
    next c hfind =>
      refine ⟨hmod _ _ rfl, ?_⟩
      intro caller pid status e he
      rcases mem_cons.mp he with he | he
      · cases he
        show (s.proc c).exitstatus ||| 0 = s.value c
        rw [Int32.or_zero]
        exact h.stored c
      · exact h.reported _ _ _ _ he
    next =>
      split
      · exact ⟨h.stored, hnew _ fun _ _ _ _ h => by cases h⟩
      · exact ⟨hmod _ _ rfl, h.reported⟩
  | kill =>
    rw [kill]
    split
    · exact ⟨h.stored, hnew _ fun _ _ _ _ h => by cases h⟩
    · exact ⟨hmod _ _ rfl, hnew _ fun _ _ _ _ h => by cases h⟩

theorem reach_values {initproc : Slot} {ok : Act → Sys → Prop} {s : Sys} (h : Reach initproc ok s) : Values s := by
  induction h with
  | boot =>
    refine ⟨fun p => ?_, fun _ _ _ _ he => absurd he not_mem_nil⟩
    show (if p = initproc then _ else _ : Proc).exitstatus = 0
    split <;> rfl
  | step _ _ hs ih => exact takes_values ih (step_takes hs)

/-- The status word says how the child ended: bit 0x100 for one that was killed, its exit value (of 8 bits)
    for one that was not. -/
def Reports (status : Int32) (e : End) : Prop :=
  (e.struck = true → status &&& 0x100 ≠ 0) ∧ (e.struck = false → 0 ≤ e.value → e.value < 256 → status = e.value)

/-- **A killed child is told apart** only if its own exit value has the bit. -/
theorem wait_reports_iff {initproc : Slot} {s : Sys} (h : Reach initproc (fun _ _ => True) s) {caller : Nat}
    {pid status : Int32} {e : End} (he : Event.reaped caller pid status e ∈ s.trace) :
    Reports status e ↔ (e.struck = true → e.value &&& 0x100 ≠ 0) := by
  rw [Reports, (reach_values h).reported _ _ _ _ he]
  exact ⟨fun h => h.1, fun h => ⟨h, fun _ _ _ => rfl⟩⟩

/-- The first slots of the table. -/
def slot0 : Slot := ⟨0, by decide⟩
def slot1 : Slot := ⟨1, by decide⟩

/-- The first process forks a child, which exits with `v`, killed or not, and waits for it. -/
def forkExitWait (killed : Bool) (v : Int32) : List Act :=
  [.allocproc slot0, .allocStack slot0 true, .forkCopy slot0 true, .forkDone slot0, .run slot1] ++
    (if killed then [.kill slot0 2] else []) ++ [.exit slot1 v, .exitEnd slot1, .wait slot0]

theorem reach_reaped {killed : Bool} {v : Int32} {e : Event} (h : ∃ s,
      steps slot0 (forkExitWait killed v) (boot slot0) = some s ∧ e ∈ s.trace) :
    ∃ s, Reach slot0 (fun _ _ => True) s ∧ e ∈ s.trace :=
  h.imp fun _ hs => ⟨reach_steps _ (fun _ _ _ => trivial) .boot hs.1, hs.2⟩

theorem wait_reports_iff_seven : ∃ s, Reach slot0 (fun _ _ => True) s ∧
    Event.reaped 0 2 7 ⟨1, 0, 7, false⟩ ∈ s.trace ∧ Reports 7 ⟨1, 0, 7, false⟩ := by
  obtain ⟨s, hr, he⟩ := @reach_reaped false 7 (.reaped 0 2 7 ⟨1, 0, 7, false⟩) ⟨_, rfl, by decide +kernel⟩
  exact ⟨s, hr, he, (wait_reports_iff hr he).mpr nofun⟩

/-- **A killed child that looks like one that exited with 0.** -/
theorem killed_child_reports_zero : ∃ s, Reach slot0 (fun _ _ => True) s ∧
    Event.reaped 0 2 0 ⟨1, 0, 0, true⟩ ∈ s.trace ∧ ¬ Reports 0 ⟨1, 0, 0, true⟩ := by
  obtain ⟨s, hr, he⟩ := @reach_reaped true 0 (.reaped 0 2 0 ⟨1, 0, 0, true⟩) ⟨_, rfl, by decide +kernel⟩
  exact ⟨s, hr, he, fun h => h.1 rfl (by decide)⟩

/-! ## The macros of the C library -/

def WSTATUS (x : Int32) : Int32 := x &&& 0o177
def WIFSTOPPED (x : Int32) : Prop := WSTATUS x = 0o177
def WIFSIGNALED (x : Int32) : Prop := WSTATUS x ≠ 0o177 ∧ WSTATUS x ≠ 0
def WIFEXITED (x : Int32) : Prop := WSTATUS x = 0
def WEXITSTATUS (x : Int32) : Int32 := x >>> 8

/-- `waitpid`, from what its calls of `wait` return: a value and the word at `status`. It waits on while the
    value, as a `pid_t`, is another child's. A `pid_t` is a `short`. -/
def waitpid (pid : Int16) : List (Int32 × Int32) → Option (Int16 × Int32)
  | [] => none
  | (p, status) :: rest =>
    if p.toInt16 < 0 then some (p.toInt16, status)
    else if p.toInt16 = pid then some (pid, status) else waitpid pid rest

/-- The status word decodes to a normal exit with the value `n`. -/
def Decodes (status n : Int32) : Prop :=
  WIFEXITED status ∧ ¬ WIFSIGNALED status ∧ ¬ WIFSTOPPED status ∧ (WEXITSTATUS status).toInt = n.toInt % 256

/-- A parent gets `status` for the child `pid` that ended as `e`: from `wait`, or from `waitpid` after some
    calls of `wait`. -/
inductive Gets (s : Sys) (pid status : Int32) (e : End) : Prop where
  | wait {caller : Nat} (h : Event.reaped caller pid status e ∈ s.trace)
  | waitpid {caller : Nat} {w : Int32} {before rest : List (Int32 × Int32)} {p : Int16}
      (h : Event.reaped caller pid w e ∈ s.trace)
      (hb : ∀ r ∈ before, 0 ≤ r.1.toInt16 ∧ r.1.toInt16 ≠ pid.toInt16)
      (hr : Xv6Proc.waitpid pid.toInt16 (before ++ (pid, w) :: rest) = some (p, status))

/-- `waitpid` stops at the child asked for, with its status; the value is the child's as a `pid_t`. -/
theorem waitpid_found {pid w : Int32} (rest : List (Int32 × Int32)) :
    ∀ before : List (Int32 × Int32), (∀ r ∈ before, 0 ≤ r.1.toInt16 ∧ r.1.toInt16 ≠ pid.toInt16) →
    waitpid pid.toInt16 (before ++ (pid, w) :: rest) = some (pid.toInt16, w) := by
  intro before
  induction before with
  | nil =>
    intro _
    rw [nil_append, waitpid, if_pos rfl, ite_self]
  | cons r before ih =>
    intro hb
    obtain ⟨h0, hne⟩ := hb r mem_cons_self
    rw [cons_append, waitpid, if_neg (Int16.not_lt.mpr h0), if_neg hne]
    exact ih fun x hx => hb x (mem_cons_of_mem _ hx)

theorem Gets.status_eq {s : Sys} (hv : Values s) {pid status : Int32} {e : End} (h : Gets s pid status e) :
    status = e.value := by
  cases h with
  | wait h => exact hv.reported _ _ _ _ h
  | waitpid h hb hr =>
    rw [waitpid_found _ _ hb] at hr
    cases hr
    exact hv.reported _ _ _ _ h

theorem and_low (n : Int32) : n &&& 0o177 = 0 ↔ n.toInt % 128 = 0 := by
  rw [← Int32.toBitVec_inj, Int32.toBitVec_and]
  have h1 : (n.toBitVec &&& (0o177 : Int32).toBitVec).toNat = n.toBitVec.toNat % 128 := by
    exact Nat.and_two_pow_sub_one_eq_mod _ 7
  have h2 : n.toInt = n.toBitVec.toInt := rfl
  rw [h2, BitVec.toInt_eq_toNat_cond, ← BitVec.toNat_inj, h1]
  have h3 := n.toBitVec.isLt
  show n.toBitVec.toNat % 128 = 0 ↔ _
  split <;> omega

theorem shift_eight (n : Int32) : (n >>> 8).toInt = n.toInt / 256 := by
  show (n.toBitVec.sshiftRight _).toInt = n.toBitVec.toInt / 256
  rw [BitVec.toInt_sshiftRight, Int.shiftRight_eq_div_pow]
  rfl

/-- An exit value that is handed on as it is decodes to itself for two values only. -/
theorem decodes_self (n : Int32) : Decodes n n ↔ n = 0 ∨ n = 32896 := by
  have hzero : n = 0 ↔ n.toInt = 0 := Int32.toInt_inj.symm
  have hbig : n = 32896 ↔ n.toInt = 32896 := Int32.toInt_inj.symm
  rw [Decodes, WIFEXITED, WIFSIGNALED, WIFSTOPPED, WEXITSTATUS, WSTATUS, and_low, shift_eight, hzero, hbig]
  constructor
  · rintro ⟨h1, -, -, h4⟩
    omega
  · intro h
    have hlow : n &&& 0o177 = 0 := (and_low n).mpr (by omega)
    rw [hlow]
    exact ⟨by omega, fun hc => hc.2 rfl, by decide, by omega⟩

/-- **The status word of a child that calls `exit(n)`** decodes to a normal exit with `n` modulo 256 for the
    values 0 and 32896 only. -/
theorem status_decodes_iff {initproc : Slot} {s : Sys} (h : Reach initproc (fun _ _ => True) s)
    {pid status : Int32} {e : End} (he : Gets s pid status e) (_hk : e.struck = false) :
    Decodes status e.value ↔ e.value = 0 ∨ e.value = 32896 := by
  rw [he.status_eq (reach_values h)]
  exact decodes_self e.value

theorem status_decodes_iff_zero : ∃ s, Reach slot0 (fun _ _ => True) s ∧ Gets s 2 0 ⟨1, 0, 0, false⟩ ∧ Decodes 0 0 := by
  obtain ⟨s, hr, he⟩ := @reach_reaped false 0 (.reaped 0 2 0 ⟨1, 0, 0, false⟩) ⟨_, rfl, by decide +kernel⟩
  exact ⟨s, hr, .wait he, (status_decodes_iff hr (.wait he) rfl).mpr (.inl rfl)⟩

/-- **A child that calls `exit(1)`** is reported as killed by signal 1. -/
theorem exit_one_looks_signaled : ∃ s, Reach slot0 (fun _ _ => True) s ∧ Gets s 2 1 ⟨1, 0, 1, false⟩ ∧
    WIFSIGNALED 1 ∧ ¬ WIFEXITED 1 ∧ ¬ Decodes 1 1 := by
  obtain ⟨s, hr, he⟩ := @reach_reaped false 1 (.reaped 0 2 1 ⟨1, 0, 1, false⟩) ⟨_, rfl, by decide +kernel⟩
  have hx : ¬ WIFEXITED 1 := by
    unfold WIFEXITED WSTATUS
    decide
  refine ⟨s, hr, .wait he, ?_, hx, fun h => hx h.1⟩
  unfold WIFSIGNALED WSTATUS
  decide

/-! ## Whom `kill` reaches -/

/-- `kill` finds no slot, or that of a process that `fork` has made. -/
def FindsLive (a : Act) (s : Sys) : Prop :=
  match a with
  | .kill _ pid => ∀ c, target s pid = some c → (s.proc c).state ≠ .unused ∧ (s.proc c).state ≠ .embryo
  | _ => True

/-- What may be seen of `kill` and `fork`: no unused slot is hit, and no process is born with its flag set. -/
def Event.live : Event → Prop
  | .born _ flag => flag = false
  | .killed _ hit => hit ≠ some .unused
  | _ => True

/-! ## Processes are born unkilled -/

/-- A slot that holds no process, or none yet. -/
def Vacant (q : Proc) : Prop := q.state = .unused ∨ q.state = .embryo

theorem Vacant.gone {q : Proc} (hv : Vacant q) : ¬ (Live q ∨ q.state = .zombie) := by
  rintro (hl | hz)
  · exact hv.elim (fun hs => not_live _ _ hs (.inl rfl) hl) fun hs => not_live _ _ hs (.inr (.inl rfl)) hl
  · exact hv.elim (fun hs => nomatch hs.symm.trans hz) fun hs => nomatch hs.symm.trans hz

structure Unkilled (s : Sys) : Prop where
  vacant : ∀ p, Vacant (s.proc p) → (s.proc p).killed = false
  trace : ∀ e ∈ s.trace, e.live

section Unkilled

variable {proc : Slot → Proc} {p : Slot} {q : Proc}

theorem not_vacant (x : ProcState) (h : q.state = x) (h1 : x ≠ .unused) (h2 : x ≠ .embryo) : ¬ Vacant q := by
  rintro (hc | hc)
  · exact h1 (h.symm.trans hc)
  · exact h2 (h.symm.trans hc)

theorem vacant_update (h : ∀ c, Vacant (proc c) → (proc c).killed = false) (hq : Vacant q → q.killed = false) :
    ∀ c, Vacant (update proc p q c) → (update proc p q c).killed = false := by
  intro c hc
  rw [update_apply] at hc ⊢
  split_ifs at hc ⊢
  · exact hq hc
  · exact h c hc

/-- A slot without a process keeps its flag when only live processes change their state. -/
theorem vacant_keep {proc' : Slot → Proc} (h : ∀ c, Vacant (proc c) → (proc c).killed = false) {c : Slot}
    (hs : (proc' c).state = (proc c).state ∨ (Live (proc c) ∧ Live (proc' c))) (hk : (proc' c).killed = (proc c).killed)
    (hc : Vacant (proc' c)) : (proc' c).killed = false := by
  rcases hs with hs | ⟨-, hl⟩
  · rw [hk]
    rw [Vacant, hs] at hc
    exact h c hc
  · exact absurd (.inl hl) hc.gone

theorem takes_unkilled {initproc : Slot} {a : Act} {s s' : Sys} (h : Unkilled s) (hem : Embryos s)
    (hok : FindsLive a s) (ht : Takes initproc s a s') : Unkilled s' := by
  have hnew : ∀ e : Event, e.live → ∀ x ∈ e :: s.trace, x.live := by
    intro e he x hx
    rcases mem_cons.mp hx with rfl | hx
    · exact he
    · exact h.trace x hx
  have hlive : ∀ (p : Slot) (q : Proc), ¬ Vacant q →
      ∀ c, Vacant (update s.proc p q c) → (update s.proc p q c).killed = false :=
    fun p q hq => vacant_update h.vacant fun hv => absurd hv hq
  -- the slot of a child has no flag
  have hchild : ∀ p np, (s.place p).child = some np → (s.proc np).killed = false :=
    fun p np hp => h.vacant np (.inr (hem.held p np hp))
  cases ht with
  | run => exact ⟨hlive _ _ (not_vacant .running rfl (by decide) (by decide)), h.trace⟩
  | yield => exact ⟨hlive _ _ (not_vacant .runnable rfl (by decide) (by decide)), h.trace⟩
  | sleep => exact ⟨hlive _ _ (not_vacant .sleeping rfl (by decide) (by decide)), h.trace⟩
  | trap hr | exit hr => exact ⟨hlive _ _ (not_vacant .running hr (by decide) (by decide)), h.trace⟩
  | wakeup =>
    exact ⟨fun c => vacant_keep h.vacant ((quiet_wakeup1 _).state c) (wakeup1_field Proc.killed (fun _ => rfl) _ c),
      h.trace⟩
  | @allocproc p =>
    rw [allocproc]
    split
    next => exact h
    next np hfind =>
      have hfree : (s.proc np).state = .unused := by simpa using find?_some hfind
      exact ⟨vacant_update h.vacant fun _ => h.vacant np (.inl hfree), h.trace⟩
  | @allocStack p np ok hr hp | @forkCopy p np ok hr hp =>
    have hk := hchild p np (by rw [hp]; rfl)
    cases ok with
    | true => exact ⟨vacant_update h.vacant fun _ => hk, h.trace⟩
    | false => exact ⟨vacant_update h.vacant fun _ => hk, h.trace⟩
  | @forkDone p np hr hp =>
    have hk := hchild p np (by rw [hp]; rfl)
    exact ⟨vacant_update h.vacant fun _ => hk, hnew _ hk⟩
  | @exitEnd p =>
    have hx := exitEnd_exited initproc p s
    refine ⟨fun c hc => vacant_keep h.vacant (hx.state c ?_) (exitEnd_field Proc.killed (fun _ _ => rfl) (fun _ _ => rfl) c)
      hc, h.trace⟩
    rintro rfl
    exact not_vacant .zombie hx.zombie (by decide) (by decide) hc
  | @wait p hr =>
    rw [waitRound]
    split
    next => exact ⟨vacant_update h.vacant fun _ => rfl, hnew _ trivial⟩
    next =>
      split
      · exact ⟨h.vacant, hnew _ trivial⟩
      · exact ⟨hlive _ _ (not_vacant .sleeping rfl (by decide) (by decide)), h.trace⟩
  | @kill p pid =>
    rw [kill]
    split
    next => exact ⟨h.vacant, hnew _ (by rintro ⟨⟩)⟩
    next c hfind =>
      obtain ⟨h1, h2⟩ := hok c hfind
      have hst : ∀ x, ProcState.runnable ≠ x → (s.proc c).state ≠ x →
          (if (s.proc c).state = .sleeping then ProcState.runnable else (s.proc c).state) ≠ x := by
        intro x hx hne
        split
        · exact hx
        · exact hne
      refine ⟨hlive _ _ ?_, hnew _ fun heq => h1 (some.inj heq)⟩
      rintro (hc | hc)
      · exact hst _ (by decide) h1 hc
      · exact hst _ (by decide) h2 hc

theorem reach_unkilled {initproc : Slot} {s : Sys} (h : Reach initproc FindsLive s) : Unkilled s := by
  induction h with
  | boot =>
    refine ⟨fun p _ => ?_, fun e he => absurd he not_mem_nil⟩
    show (if p = initproc then _ else _ : Proc).killed = false
    split <;> rfl
  | step hr hok hs ih => exact takes_unkilled ih (reach_embryos hr) hok (step_takes hs)

end Unkilled

/-- **`kill` touches only live processes and children are born unkilled**, in every run in which no `kill` is
    given the `pid` of an unused slot, or of a process that `fork` has not finished. -/
theorem kill_live_only {initproc : Slot} {s : Sys} (h : Reach initproc FindsLive s) : ∀ e ∈ s.trace, e.live :=
  (reach_unkilled h).trace

/-- The steps of a `fork` by the first process. -/
def forkActs : List Act := [.allocproc slot0, .allocStack slot0 true, .forkCopy slot0 true, .forkDone slot0]

/-- The table after the first `fork`. -/
def forked : Sys := (steps slot0 forkActs (boot slot0)).get (by decide)

/-- The child of the first process, born and killed. -/
theorem kill_live_only_child : ∃ s, Reach slot0 FindsLive s ∧ Event.born slot1 false ∈ s.trace ∧
    Event.killed 2 (some .runnable) ∈ s.trace ∧ ∀ e ∈ s.trace, e.live := by
  have hfork : Reach slot0 FindsLive forked := by
    refine reach_steps forkActs ?_ .boot (some_get _).symm
    intro a t ha
    simp only [forkActs, mem_cons, not_mem_nil, or_false] at ha
    rcases ha with rfl | rfl | rfl | rfl <;> trivial
  have htarget : target forked 2 = some slot1 := by decide +kernel
  have hstate : (forked.proc slot1).state = .runnable := by decide +kernel
  have hok : FindsLive (.kill slot0 2) forked := by
    intro c hc
    obtain rfl : slot1 = c := some.inj (htarget.symm.trans hc)
    decide
  have hruns : Runs forked slot0 ∧ forked.place slot0 = .user := ⟨by decide +kernel, by decide +kernel⟩
  have hstep : step slot0 (.kill slot0 2) forked = some (kill 2 forked) := by
    rw [step, if_pos hruns]
  have hr : Reach slot0 FindsLive (kill 2 forked) := .step hfork hok hstep
  exact ⟨_, hr, by decide +kernel, by decide +kernel, kill_live_only hr⟩

/-- **`kill(0)`** sets the flag of an unused slot and returns 0, and the next child is born killed. -/
theorem kill_zero_unused : ∃ s, Reach slot0 (fun _ _ => True) s ∧ Event.killed 0 (some .unused) ∈ s.trace ∧
    Event.born slot1 true ∈ s.trace := by
  refine ⟨(steps slot0 (.kill slot0 0 :: forkActs) (boot slot0)).get (by decide), ?_, by decide +kernel,
    by decide +kernel⟩
  exact reach_steps _ (fun _ _ _ => trivial) .boot (some_get _).symm

end Xv6Proc
