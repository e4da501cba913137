import Xv6.GroupCommitProofs

/-!
# The log's waiters

The control invariant of the group commit: who owns the two locks, what `outstanding` counts,
who set `committing`, and why a process on its way to sleep will be woken. Each conjunct is
kept by every effect a step can have; the induction over runs is done once.

A process that has decided to sleep is safe for one of three reasons: a commit is running,
other operations are in progress and leave too little room, or some process is about to run
`wakeup`. The third is never the case while `log.lock` is free, and that is what
`sleeper_has_reason` says.
-/

set_option linter.unusedSectionVars false

namespace Xv6Group

open Interleave Xv6Disk Xv6Kernel Function Option Kind

variable {P : Type} [DecidableEq P]

/-! ## Locks, counter and flag -/

/-- **The control invariant.** The two locks belong to the processes in their sections,
    `outstanding` counts the operations in progress, `committing` is the flag of the one
    process in `commit`, and a process on its way to sleep has a reason to sleep or
    somebody about to wake it. -/
structure Ctl [Fintype P] (s : St P) : Prop where
  lock : Owner (fun c : Pc => c.kind.lock) s.pc s.lock
  plock : Owner (fun c : Pc => c.kind.plock) s.pc s.plock
  count : s.outstanding = count (fun c : Pc => c.kind.op) s.pc
  commit : ∃ o, Owner (fun c : Pc => c.kind.commit) s.pc o ∧ s.committing = o.isSome
  idle : s.committing = true → s.outstanding = 0
  cleared : ∀ q, (s.pc q).kind.cleared = true → s.lh = []
  empty : s.outstanding = 0 → s.committing = false → s.lh = []
  waits : ∀ q, (s.pc q).kind.waiter = true →
    s.committing = true ∨ (0 < s.outstanding ∧ Full s) ∨ ∃ r, (s.pc r).kind.waking = true

section Ctl

variable [Fintype P] {size : Nat} {p : P} {a : Act} {s s' : St P}

theorem ctl_init : Ctl (init P) := by
  refine ⟨owner_none rfl, owner_none rfl, ?_, ⟨none, owner_none rfl, rfl⟩, ?_, ?_, ?_, ?_⟩
  · have h0 : Interleave.count (fun c : Pc => c.kind.op) (init P).pc = 0 :=
      count_eq_zero.mpr fun _ => rfl
    rw [h0]; rfl
  · intro hf; cases hf
  · intro q hf; cases hf
  · intro _ _; rfl
  · intro q hf; cases hf

section

variable (h : Ctl s)
include h

theorem ctl_lock (he : Effect size p a s s') : Owner (fun c : Pc => c.kind.lock) s'.pc s'.lock := by
  cases he with
  | silent _ _ hk | pacq _ _ hk => have e := congrArg lock hk; exact owner_same h.lock e
  | acq hfree _ hk =>
    have hl := h.lock
    rw [hfree] at hl
    exact owner_acquire hl (congrArg lock hk)
  | rel hl _ _ hk => exact owner_release h.lock hl (congrArg lock hk)
  | wake _ hk hp =>
    refine owner_same (owner_map h.lock fun c => kind_awake lock rfl c) ?_
    rw [kind_awake lock rfl, hp, hk]
  | _ =>
    rename_i hp
    refine owner_same h.lock ?_
    rw [hp]
    rfl

theorem ctl_plock (he : Effect size p a s s') : Owner (fun c : Pc => c.kind.plock) s'.pc s'.plock := by
  cases he with
  | silent _ _ hk | acq _ _ hk | rel _ _ _ hk => have e := congrArg plock hk; exact owner_same h.plock e
  | pacq hfree _ hk =>
    have hl := h.plock
    rw [hfree] at hl
    exact owner_acquire hl (congrArg plock hk)
  | sleep hp => exact owner_release h.plock (congrArg plock hp) rfl
  | wake _ hk hp =>
    refine owner_release (owner_map h.plock fun c => kind_awake plock rfl c) ?_
      (congrArg plock hk)
    rw [kind_awake plock rfl, hp]
  | _ =>
    rename_i hp
    refine owner_same h.plock ?_
    rw [hp]
    rfl

theorem ctl_count (he : Effect size p a s s') : s'.outstanding = Interleave.count (fun c : Pc => c.kind.op) s'.pc := by
  let ops : (P → Pc) → Nat := Interleave.count fun c => c.kind.op
  have hcount : s.outstanding = ops s.pc := h.count
  have hsame : ∀ c : Pc, c.kind.op = (s.pc p).kind.op → s.outstanding = ops (update s.pc p c) := by
    intro c hc
    have heq : ops (update s.pc p c) = ops s.pc := count_same hc
    rw [heq]
    exact hcount
  have hleave : ∀ c : Pc, (s.pc p).kind.op = true → c.kind.op = false → s.outstanding - 1 = ops (update s.pc p c) := by
    intro c hp hc
    have heq : ops s.pc = ops (update s.pc p c) + 1 := count_leave hp hc
    omega
  cases he with
  | silent _ _ hk | acq _ _ hk | rel _ _ _ hk | pacq _ _ hk => have e := congrArg op hk; exact hsame _ e
  | enter _ _ _ hp =>
    have hp' : (s.pc p).kind.op = false := congrArg op hp
    have heq : ops (update s.pc p .beginRel) = ops s.pc + 1 := count_enter hp' rfl
    show s.outstanding + 1 = ops (update s.pc p .beginRel)
    rw [heq, hcount]
    rfl
  | endPanic _ hp | endLast _ _ hp | endMore _ _ hp => exact hleave _ (congrArg op hp) rfl
  | wake _ hk hp =>
    rw [count_same, count_map]
    · exact hcount
    · intro c; exact kind_awake op rfl c
    · rw [kind_awake op rfl, hp, hk]
  | _ =>
    rename_i hp
    refine hsame _ ?_
    rw [hp]
    rfl

theorem ctl_commit (he : Effect size p a s s') :
    ∃ o, Owner (fun c : Pc => c.kind.commit) s'.pc o ∧ s'.committing = o.isSome := by
  obtain ⟨o, ho, hflag⟩ := h.commit
  cases he with
  | silent _ _ hk | acq _ _ hk | rel _ _ _ hk | pacq _ _ hk =>
    have e := congrArg commit hk; exact ⟨o, owner_same ho e, hflag⟩
  | endLast hc _ _ =>
    rw [hc] at hflag
    have hnone : o = none := isSome_eq_false_iff.mp hflag.symm |> isNone_iff_eq_none.mp
    rw [hnone] at ho
    exact ⟨some p, owner_acquire ho rfl, rfl⟩
  | done hp => exact ⟨none, owner_release ho (congrArg commit hp) rfl, rfl⟩
  | wake _ hk hp =>
    refine ⟨o, owner_same (owner_map ho fun c => kind_awake commit rfl c) ?_, hflag⟩
    rw [kind_awake commit rfl, hp, hk]
  | _ =>
    rename_i hp
    refine ⟨o, owner_same ho ?_, hflag⟩
    rw [hp]
    rfl

/-- While an operation is in progress nobody commits. -/
theorem Ctl.running (hp : (s.pc p).kind.op = true) : 0 < s.outstanding ∧ s.committing = false := by
  have hpos : 0 < Interleave.count (fun c : Pc => c.kind.op) s.pc := count_pos.mpr ⟨p, hp⟩
  have hout : 0 < s.outstanding := by rw [h.count]; omega
  refine ⟨hout, ?_⟩
  cases hc : s.committing with
  | false => rfl
  | true =>
    have := h.idle hc
    omega

theorem ctl_idle (he : Effect size p a s s') : s'.committing = true → s'.outstanding = 0 := by
  cases he with
  | enter hc _ _ _ | endMore hc _ _ =>
    intro hc'
    rw [show s.committing = true from hc'] at hc
    cases hc
  | endPanic hc hp =>
    rw [(h.running (congrArg op hp)).2] at hc
    cases hc
  | endLast _ ho _ => exact fun _ => ho
  | done _ => intro hc; cases hc
  | _ => exact h.idle

theorem Ctl.committing_of (hp : (s.pc p).kind.commit = true) : s.committing = true := by
  obtain ⟨o, ho, hflag⟩ := h.commit
  rw [hflag, (ho p).mp hp]
  rfl

/-- A region with an empty header is left alone by the others. -/
theorem cleared_frame {c : Pc} (hpc : s'.pc = update s.pc p c)
    (hlh : s'.lh = s.lh) (hk : c.kind.cleared = true → (s.pc p).kind.cleared = true) :
    ∀ q, (s'.pc q).kind.cleared = true → s'.lh = [] := by
  intro q hq
  rw [hpc] at hq
  rw [hlh]
  rcases kind_update cleared s.pc p c hq with ⟨rfl, hc⟩ | ⟨_, hc⟩
  · exact h.cleared q (hk hc)
  · exact h.cleared q hc

end

theorem cleared_commit (c : Pc) (hc : c.kind.cleared = true) : c.kind.commit = true := by
  cases c with
  | writeHead2 => rfl
  | doneAcq => rfl
  | doneBody => rfl
  | endRel d => cases d <;> exact nomatch hc
  | panicked m => cases m <;> exact nomatch hc
  | _ => cases hc

theorem ctl_cleared (h : Ctl s) (he : Effect size p a s s') : ∀ q, (s'.pc q).kind.cleared = true → s'.lh = [] := by
  cases he with
  | silent _ _ hk | acq _ _ hk | rel _ _ _ hk | pacq _ _ hk =>
    have e := congrArg cleared hk
    exact cleared_frame h rfl rfl fun hc => e.symm.trans hc
  | store _ hp =>
    -- a block is being logged, so nobody is in `commit`
    intro q hq
    exfalso
    have hrun := h.running (congrArg op hp)
    have hq' : (s.pc q).kind.cleared = true := by
      rcases kind_update cleared s.pc p .logRel hq with ⟨_, hc⟩ | ⟨_, hc⟩
      · cases hc
      · exact hc
    rw [h.committing_of (cleared_commit _ hq')] at hrun
    cases hrun.2
  | @wake c _ hk hp =>
    intro q hq
    rcases kind_update cleared (fun q => awake (s.pc q)) p c hq with ⟨_, hc⟩ | ⟨_, hc⟩
    · rw [hk] at hc; cases hc
    · rw [kind_awake cleared rfl] at hc
      exact h.cleared q hc
  | skip hn _ => exact fun _ _ => hn
  | clear _ => exact fun _ _ => rfl
  | _ => exact cleared_frame h rfl rfl nofun

theorem ctl_empty (h : Ctl s) (he : Effect size p a s s') :
    s'.outstanding = 0 → s'.committing = false → s'.lh = [] := by
  cases he with
  | enter _ _ _ hp =>
    intro ho _
    have hcnt := h.count
    have ho' : s.outstanding + 1 = 0 := ho
    omega
  | store _ hp =>
    intro ho _
    have hpos := (h.running (congrArg op hp)).1
    have ho' : s.outstanding = 0 := ho
    omega
  | endPanic hc hp =>
    rw [(h.running (congrArg op hp)).2] at hc
    cases hc
  | endLast _ _ _ => intro _ hc; cases hc
  | endMore _ ho _ => intro ho' _; exact absurd ho' ho
  | skip hn _ => exact fun _ _ => hn
  | clear _ => exact fun _ _ => rfl
  | done hp => exact fun _ _ => h.cleared p (congrArg cleared hp)
  | _ => exact h.empty

/-- A reason to wait outlives a step after which as many processes are about to wake the
    sleepers, and the log is as full as before. -/
theorem waits_frame (h : Ctl s) {c : Pc} (hpc : s'.pc = update s.pc p c)
    (hw : c.kind.waiter = true → (s.pc p).kind.waiter = true)
    (hk : (s.pc p).kind.waking = true → c.kind.waking = true) (hc : s.committing = true → s'.committing = true)
    (hf : 0 < s.outstanding ∧ Full s → 0 < s'.outstanding ∧ Full s') : ∀ q, (s'.pc q).kind.waiter = true →
      s'.committing = true ∨ (0 < s'.outstanding ∧ Full s') ∨ ∃ r, (s'.pc r).kind.waking = true := by
  intro q hq
  rw [hpc] at hq ⊢
  have hq' : (s.pc q).kind.waiter = true := by
    rcases kind_update waiter s.pc p c hq with ⟨rfl, hc⟩ | ⟨_, hc⟩
    · exact hw hc
    · exact hc
  rcases h.waits q hq' with h1 | h1 | ⟨r, hr⟩
  · exact .inl (hc h1)
  · exact .inr (.inl (hf h1))
  · refine .inr (.inr ⟨r, ?_⟩)
    rw [update_apply]
    split_ifs with hrp
    · subst hrp
      exact hk hr
    · exact hr

theorem length_store (lh : List Nat) (b i : Nat) :
    lh.length ≤ (if i = lh.length then lh ++ [b] else lh.set i b).length := by
  split_ifs with hi
  · rw [List.length_append]
    omega
  · rw [List.length_set]

/-- Who is still on the way to sleep when `wakeup` runs holds one of the locks. -/
theorem awake_waiter (c : Pc) (hc : (awake c).kind.waiter = true) : c.kind.lock = true ∨ c.kind.plock = true := by
  cases c with
  | sleepAcq => exact .inl rfl
  | sleepRel => exact .inl rfl
  | sleepSet => exact .inr rfl
  | endRel d => cases d <;> exact nomatch hc
  | panicked m => cases m <;> exact nomatch hc
  | _ => cases hc

theorem ctl_waits (h : Ctl s) (he : Effect size p a s s') : ∀ q, (s'.pc q).kind.waiter = true →
      s'.committing = true ∨ (0 < s'.outstanding ∧ Full s') ∨ ∃ r, (s'.pc r).kind.waking = true := by
  cases he with
  | silent _ _ hk | acq _ _ hk | rel _ _ _ hk | pacq _ _ hk =>
    exact waits_frame h rfl (fun hw => by rw [hk] at hw; exact hw) (fun hw => by rw [hk]; exact hw) id id
  | sleep hp =>
    refine waits_frame h rfl (fun _ => congrArg waiter hp) (fun hw => ?_) id id
    rw [hp] at hw; cases hw
  | wait hw hp =>
    -- a full log that nobody uses would be empty
    intro q _
    rcases hw with hc | hf
    · exact .inl hc
    · cases hc : s.committing with
      | true => exact .inl hc
      | false =>
        refine .inr (.inl ⟨?_, hf⟩)
        have hcnt := h.count
        rcases Int.lt_or_eq_of_le (show 0 ≤ s.outstanding by omega) with hpos | hz
        · exact hpos
        · exfalso
          have hf' : (30 : Int) < s.lh.length + (s.outstanding + 1) * 10 := hf
          rw [h.empty hz.symm hc, ← hz] at hf'
          exact absurd hf' (by decide)
  | enter _ hf _ hp =>
    refine waits_frame h rfl nofun (fun hw => ?_) id fun hx => absurd hx.2 hf
    rw [hp] at hw; cases hw
  | @store b i hpc hp =>
    refine waits_frame h rfl nofun (fun hw => ?_) id ?_
    · rw [hp] at hw; cases hw
    · rintro ⟨h1, h2⟩
      refine ⟨h1, ?_⟩
      have hlen := length_store s.lh b i
      have h2' : (30 : Int) < s.lh.length + (s.outstanding + 1) * 10 := h2
      show (30 : Int) < (List.length (if i = s.lh.length then s.lh ++ [b] else s.lh.set i b) : Nat)
        + (s.outstanding + 1) * 10
      omega
  | endPanic hc hp =>
    rw [(h.running (congrArg op hp)).2] at hc
    cases hc
  | endLast _ _ _ => exact fun _ _ => .inl rfl
  | endMore _ _ _ =>
    refine fun _ _ => .inr (.inr ⟨p, ?_⟩)
    show (update s.pc p .endWakeAcq p).kind.waking = true
    rw [update_self]; rfl
  | @wake c _ hk hp =>
    -- nobody is left: a waiter holds one of the locks that `p` holds
    intro q hq
    exfalso
    rcases kind_update waiter (fun q => awake (s.pc q)) p c hq with ⟨_, hc⟩ | ⟨hqp, hc⟩
    · rw [hk] at hc; cases hc
    · rcases awake_waiter _ hc with hl | hl
      · exact hqp (h.lock.unique hl (congrArg lock hp))
      · exact hqp (h.plock.unique hl (congrArg plock hp))
  | clear hp => exact fun _ _ => .inl (h.committing_of (congrArg commit hp))
  | done _ =>
    refine fun _ _ => .inr (.inr ⟨p, ?_⟩)
    show (update s.pc p .doneWakeAcq p).kind.waking = true
    rw [update_self]; rfl
  | _ =>
    rename_i hp
    refine waits_frame h rfl nofun (fun hw => ?_) id id
    rw [hp] at hw; cases hw

/-- **Every step keeps the control invariant.** -/
theorem step_ctl (h : Ctl s) (hs : step size p a s = some s') : Ctl s' := by
  have he := step_effect hs
  exact ⟨ctl_lock h he, ctl_plock h he, ctl_count h he, ctl_commit h he, ctl_idle h he,
    ctl_cleared h he, ctl_empty h he, ctl_waits h he⟩

theorem reach_ctl (h : Reach size s) : Ctl s := by
  refine run_inv ctl_init ?_ h
  rintro s1 s2 h1 ⟨q, b, hs⟩
  exact step_ctl h1 hs

end Ctl

/-- The processes that will run `wakeup` hold `log.lock`. -/
theorem waking_lock (c : Pc) (hc : c.kind.waking = true) : c.kind.lock = true := by
  cases c with
  | endWakeAcq | endWake | doneWakeAcq | doneWake => rfl
  | endRel d => cases d <;> exact nomatch hc
  | panicked m => cases m <;> exact nomatch hc
  | _ => cases hc

/-- **Log waiters are never stranded.** In every state of every interleaving in which
    `log.lock` is free, a process that sleeps on the log could not be admitted: a commit is
    running, or operations are outstanding and there is not enough room. And there is
    another process whose commit or whose `end_op` will wake it. -/
theorem sleeper_has_reason [Fintype P] {size : Nat} {s : St P} (hr : Reach size s)
    (hfree : s.lock = none) {p : P} (hp : s.pc p = .sleeping) : (s.committing = true ∨ (0 < s.outstanding ∧
      (LOGSIZE : Int) < s.lh.length + (s.outstanding + 1) * MAXOPBLOCKS)) ∧
    ∃ q, q ≠ p ∧ ((s.pc q).kind.commit = true ∨ (s.pc q).kind.op = true) := by
  have h := reach_ctl hr
  have hreason : s.committing = true ∨ (0 < s.outstanding ∧ Full s) := by
    rcases h.waits p (by rw [hp]; rfl) with h1 | h1 | ⟨q, hq⟩
    · exact .inl h1
    · exact .inr h1
    · have hl := (h.lock q).mp (waking_lock _ hq)
      rw [hfree] at hl
      cases hl
  refine ⟨hreason, ?_⟩
  have hne : ∀ q, ((s.pc q).kind.commit = true ∨ (s.pc q).kind.op = true) → q ≠ p := by
    rintro q hq rfl
    rw [hp] at hq
    rcases hq with hf | hf <;> exact nomatch hf
  rcases hreason with hc | ⟨hpos, _⟩
  · obtain ⟨o, ho, hflag⟩ := h.commit
    rw [hc] at hflag
    obtain ⟨q, hq⟩ := isSome_iff_exists.mp hflag.symm
    have hq' := (ho q).mpr hq
    exact ⟨q, hne q (.inl hq'), .inl hq'⟩
  · have hpos' : 0 < Interleave.count (fun c : Pc => c.kind.op) s.pc := by
      have := h.count
      omega
    obtain ⟨q, hq⟩ := count_pos.mp hpos'
    exact ⟨q, hne q (.inr hq), .inr hq⟩

/-- Four processes call `begin_op` one after the other; the fourth goes to sleep. -/
def fourBegin : List (Fin 4 × Act) :=
  [(0, .go), (0, .go), (0, .go), (0, .go), (1, .go), (1, .go), (1, .go), (1, .go),
    (2, .go), (2, .go), (2, .go), (2, .go),
    (3, .go), (3, .go), (3, .go), (3, .go), (3, .go), (3, .go)]

/-- With three operations outstanding the fourth process sleeps, and one of the three will
    wake it. -/
theorem sleeper_has_reason_four : ∃ s : St (Fin 4), Reach 30 s ∧ s.lock = none ∧
    s.pc 3 = .sleeping ∧ ∃ q, q ≠ 3 ∧ ((s.pc q).kind.commit = true ∨ (s.pc q).kind.op = true) := by
  have hrun : ((runActs 30 fourBegin (init (Fin 4))).map fun s => (s.lock, s.pc 3))
      = some (none, .sleeping) := by decide
  obtain ⟨s, hs, heq⟩ := map_eq_some_iff.mp hrun
  have hr := runActs_reach hs
  have hlock : s.lock = none := congrArg Prod.fst heq
  have hpc : s.pc 3 = .sleeping := congrArg Prod.snd heq
  exact ⟨s, hr, hlock, hpc, (sleeper_has_reason hr hlock hpc).2⟩

end Xv6Group
