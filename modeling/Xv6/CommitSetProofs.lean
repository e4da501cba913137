import Xv6.LogWaitersProofs

/-!
# What is committed together

The header of the log as a set of blocks: it has no duplicates, and up to the commit point it
holds what the operations logged that are in progress or have ended since the last commit. A
commit runs only when no operation is in progress, so what it writes belongs to operations
that have all ended.
-/

set_option linter.unusedSectionVars false

namespace Xv6Group

open Interleave Xv6Disk Xv6Kernel Function List Kind

variable {P : Type} [DecidableEq P]

/-! ## The header and the operations -/

/-- **The data invariant.** The header has no duplicates, and until the commit point it
    lists what the operations in progress and those that ended since the last commit have
    logged. -/
structure Data (s : St P) : Prop where
  nodup : s.lh.Nodup
  index : ∀ q b i, s.pc q = .logStore b i → i = s.lh.idxOf b
  mine : ∀ q, (s.pc q).kind.op = false → s.mine q = []
  past : ∀ q, (s.pc q).kind.past = true → s.ended = []
  logged : (∀ q, (s.pc q).kind.past = false) → ∀ b, b ∈ s.lh ↔ b ∈ s.ended ∨ ∃ q, b ∈ s.mine q

/-- The stores after the absorption loop, at the index where the loop stopped. -/
theorem store_eq_absorb (lh : List Nat) (b : Nat) :
    (if lh.idxOf b = lh.length then lh ++ [b] else lh.set (lh.idxOf b) b) = absorb lh b := by
  by_cases hb : b ∈ lh
  · have hlt : lh.idxOf b < lh.length := idxOf_lt_length_iff.mpr hb
    have hset : lh.set (lh.idxOf b) b = lh := by
      conv_rhs => rw [← set_getElem_self hlt]
      rw [getElem_idxOf hlt]
    rw [if_neg (Nat.ne_of_lt hlt), absorb, if_pos hb, hset]
  · rw [if_pos (idxOf_eq_length_iff.mpr hb), absorb, if_neg hb]

/-- Past the commit point a process is still in `commit`. -/
theorem past_commit (c : Pc) (hc : c.kind.past = true) : c.kind.commit = true := by
  cases c with
  | installTrans => rfl
  | clearHead => rfl
  | endRel d => cases d <;> exact nomatch hc
  | panicked m => cases m <;> exact nomatch hc
  | _ => cases hc

section Data

variable {size : Nat} {p : P} {a : Act} {s s' : St P}

theorem data_init : Data (init P) := by
  refine ⟨nodup_nil, ?_, ?_, ?_, ?_⟩
  · intro q b i hf; cases hf
  · intro q _; rfl
  · intro q hf; cases hf
  · intro _ b
    constructor
    · intro hf; cases hf
    · rintro (hf | ⟨_, hf⟩) <;> exact nomatch hf

/-- What touches neither header nor ghosts and stays on its side of the commit point. -/
theorem data_same (h : Data s) (hlh : s'.lh = s.lh) (hmine : s'.mine = s.mine) (hended : s'.ended = s.ended)
    (hindex : ∀ q b i, s'.pc q = .logStore b i → i = s.lh.idxOf b)
    (hop : ∀ q, (s'.pc q).kind.op = false → (s.pc q).kind.op = false)
    (hpast : ∀ q, (s'.pc q).kind.past = (s.pc q).kind.past) : Data s' := by
  refine ⟨by rw [hlh]; exact h.nodup, by rw [hlh]; exact hindex, ?_, ?_, ?_⟩
  · intro q hq
    rw [hmine]
    exact h.mine q (hop q hq)
  · intro q hq
    rw [hended]
    rw [hpast] at hq
    exact h.past q hq
  · intro hno b
    rw [hlh, hended, hmine]
    exact h.logged (fun q => by rw [← hpast]; exact hno q) b

/-- A move of one process. -/
theorem data_frame (h : Data s) {c : Pc} (hpc : s'.pc = update s.pc p c)
    (hlh : s'.lh = s.lh) (hmine : s'.mine = s.mine) (hended : s'.ended = s.ended)
    (hc : ∀ b i, c = .logStore b i → i = s.lh.idxOf b) (hop : c.kind.op = false → (s.pc p).kind.op = false)
    (hpast : c.kind.past = (s.pc p).kind.past) : Data s' := by
  refine data_same h hlh hmine hended (fun q b i => ?_) (fun q => ?_) fun q => ?_
  all_goals
    rw [hpc, update_apply]
    split_ifs with hqp
  · exact hc b i
  · exact h.index q b i
  · subst hqp
    exact hop
  · exact id
  · subst hqp
    exact hpast
  · rfl

/-- While an operation is in progress no commit is past its commit point. -/
theorem Ctl.noPast [Fintype P] (hctl : Ctl s) (hop : (s.pc p).kind.op = true) (q : P) : (s.pc q).kind.past = false := by
  cases hq : (s.pc q).kind.past with
  | false => rfl
  | true =>
    have hc := hctl.committing_of (past_commit _ hq)
    rw [(hctl.running hop).2] at hc
    cases hc

/-- A step of `log_write` under the lock. -/
theorem data_store [Fintype P] (hctl : Ctl s) (h : Data s) {b i : Nat}
    (hp : s.pc p = .logStore b i) (hpc : s'.pc = update s.pc p .logRel)
    (hlh : s'.lh = if i = s.lh.length then s.lh ++ [b] else s.lh.set i b)
    (hmine : s'.mine = update s.mine p (absorb (s.mine p) b)) (hended : s'.ended = s.ended) : Data s' := by
  rw [h.index p b i hp, store_eq_absorb] at hlh
  have hop : (s.pc p).kind.op = true := by rw [hp]; rfl
  have hlock : (s.pc p).kind.lock = true := by rw [hp]; rfl
  refine ⟨by rw [hlh]; exact nodup_absorb h.nodup b, ?_, ?_, ?_, ?_⟩
  · -- another process in this section would hold the lock as well
    intro q c j hq
    rw [hpc, update_apply] at hq
    split_ifs at hq with hqp
    exact absurd (hctl.lock.unique (p := q) (by rw [hq]; rfl) hlock) hqp
  · intro q hq
    rw [hpc] at hq
    rw [hmine]
    by_cases hqp : q = p
    · subst hqp
      rw [update_self] at hq
      cases hq
    · rw [update_of_ne hqp] at hq ⊢
      exact h.mine q hq
  · intro q hq
    rw [hpc] at hq
    rw [hended]
    rcases kind_update past s.pc p .logRel hq with ⟨_, hc⟩ | ⟨_, hc⟩
    · cases hc
    · exact h.past q hc
  · intro _ c
    rw [hlh, hended, hmine, mem_absorb, h.logged (hctl.noPast hop) c]
    constructor
    · rintro ((h1 | ⟨q, hq⟩) | rfl)
      · exact .inl h1
      · refine .inr ⟨q, ?_⟩
        by_cases hqp : q = p
        · subst hqp; rw [update_self, mem_absorb]; exact .inl hq
        · rwa [update_of_ne hqp]
      · exact .inr ⟨p, by rw [update_self, mem_absorb]; exact .inr rfl⟩
    · rintro (h1 | ⟨q, hq⟩)
      · exact .inl (.inl h1)
      · rw [update_apply] at hq
        split_ifs at hq with hqp
        · subst hqp
          rw [mem_absorb] at hq
          rcases hq with hq | hq
          · exact .inl (.inr ⟨q, hq⟩)
          · exact .inr hq
        · exact .inl (.inr ⟨q, hq⟩)

/-- The end of an operation: what it logged goes to the operations that have ended. -/
theorem data_end [Fintype P] (hctl : Ctl s) (h : Data s) {c : Pc}
    (hp : (s.pc p).kind = { lock := true, op := true }) (hc : ∀ b i, c ≠ .logStore b i)
    (hcp : c.kind.past = false) (hpc : s'.pc = update s.pc p c) (hlh : s'.lh = s.lh)
    (hmine : s'.mine = update s.mine p []) (hended : s'.ended = s.mine p ++ s.ended) :
    Data s' := by
  have hnopast := hctl.noPast (congrArg op hp)
  refine ⟨by rw [hlh]; exact h.nodup, ?_, ?_, ?_, ?_⟩
  · intro q b i hq
    rw [hlh]
    rw [hpc, update_apply] at hq
    split_ifs at hq
    · exact absurd hq (hc b i)
    · exact h.index q b i hq
  · intro q hq
    rw [hmine, update_apply]
    split_ifs with hqp
    · rfl
    · rw [hpc, update_of_ne hqp] at hq
      exact h.mine q hq
  · intro q hq
    rw [hpc] at hq
    rcases kind_update past s.pc p c hq with ⟨_, hf⟩ | ⟨_, hf⟩
    · rw [hcp] at hf; cases hf
    · rw [hnopast q] at hf; cases hf
  · intro _ b
    rw [hlh, hended, hmine, h.logged hnopast b, mem_append]
    constructor
    · rintro (h1 | ⟨q, hq⟩)
      · exact .inl (.inr h1)
      · by_cases hqp : q = p
        · subst hqp; exact .inl (.inl hq)
        · exact .inr ⟨q, by rwa [update_of_ne hqp]⟩
    · rintro ((h1 | h1) | ⟨q, hq⟩)
      · exact .inr ⟨p, h1⟩
      · exact .inl h1
      · rw [update_apply] at hq
        split_ifs at hq
        · cases hq
        · exact .inr ⟨q, hq⟩

/-- `wakeup` touches neither header nor operations. -/
theorem data_wake (h : Data s) {c : Pc} (hp : (s.pc p).kind.op = false)
    (hc : ∀ b i, c ≠ .logStore b i) (hk : c.kind = { lock := true })
    (hpp : (s.pc p).kind.past = false)
    (hpc : s'.pc = update (fun q => awake (s.pc q)) p c) (hlh : s'.lh = s.lh)
    (hmine : s'.mine = s.mine) (hended : s'.ended = s.ended) : Data s' := by
  refine data_same h hlh hmine hended (fun q b i hq => ?_) (fun q => ?_) fun q => ?_
  · rw [hpc, update_apply] at hq
    split_ifs at hq
    · exact absurd hq (hc b i)
    · refine h.index q b i ?_
      cases hpq : s.pc q with
      | sleeping => rw [hpq] at hq; cases hq
      | _ => rw [hpq] at hq; exact hq
  all_goals
    rw [hpc, update_apply]
    split_ifs with hqp
  · exact fun _ => hqp ▸ hp
  · exact fun hq => (kind_awake op rfl _).symm.trans hq
  · rw [hk, hqp, hpp]
  · rw [kind_awake past rfl]

/-- A committing process sees no operation in progress. -/
theorem Ctl.noOp [Fintype P] (hctl : Ctl s) (hp : (s.pc p).kind.commit = true) (q : P) : (s.pc q).kind.op = false := by
  cases hq : (s.pc q).kind.op with
  | false => rfl
  | true =>
    have hc := (hctl.running hq).2
    rw [hctl.committing_of hp] at hc
    cases hc

/-- The commit point: a new group begins. -/
theorem data_point (h : Data s) (hp : (s.pc p).kind.op = false)
    (hpc : s'.pc = update s.pc p .installTrans) (hlh : s'.lh = s.lh)
    (hmine : s'.mine = s.mine) (hended : s'.ended = []) : Data s' := by
  refine ⟨by rw [hlh]; exact h.nodup, ?_, ?_, fun _ _ => hended, ?_⟩
  · intro q b i hq
    rw [hlh]
    rw [hpc, update_apply] at hq
    split_ifs at hq
    exact h.index q b i hq
  · intro q hq
    rw [hmine]
    by_cases hqp : q = p
    · subst hqp; exact h.mine q hp
    · rw [hpc, update_of_ne hqp] at hq
      exact h.mine q hq
  · intro hno
    have hpast := hno p
    rw [hpc, update_self] at hpast
    cases hpast

/-- The header is emptied when nothing is left that it should list. -/
theorem data_clear [Fintype P] (hctl : Ctl s) (h : Data s) (hp : (s.pc p).kind.commit = true)
    (hpast : (s.pc p).kind.past = true) (hpc : s'.pc = update s.pc p .writeHead2)
    (hlh : s'.lh = []) (hmine : s'.mine = s.mine) (hended : s'.ended = s.ended) : Data s' := by
  have hnone : ∀ q, s.mine q = [] := fun q => h.mine q (hctl.noOp hp q)
  have hend : s'.ended = [] := hended.trans (h.past p hpast)
  refine ⟨by rw [hlh]; exact nodup_nil, ?_, ?_, fun _ _ => hend, ?_⟩
  · intro q b i hq
    rw [hpc, update_apply] at hq
    split_ifs at hq
    have hop := hctl.noOp hp q
    rw [hq] at hop
    cases hop
  · intro q _
    rw [hmine]; exact hnone q
  · intro _ b
    rw [hlh, hend, hmine]
    constructor
    · intro hf; cases hf
    · rintro (hf | ⟨q, hq⟩)
      · cases hf
      · rw [hnone q] at hq
        cases hq

/-- **Every step keeps the data invariant.** -/
theorem step_data [Fintype P] (hctl : Ctl s) (h : Data s) (hs : step size p a s = some s') : Data s' := by
  have he := step_effect hs
  cases he with
  | silent _ hc hk | acq _ hc hk | rel _ _ hc hk | pacq _ hc hk =>
    have e1 := congrArg op hk
    have e2 := congrArg past hk
    exact data_frame h rfl rfl rfl rfl (fun b i hf => absurd hf (hc b i)) (fun hf => e1.symm.trans hf) e2
  | enter _ _ _ hp =>
    refine data_frame h rfl rfl rfl rfl nofun nofun ?_
    rw [hp]; rfl
  | scan hp =>
    refine data_frame h rfl rfl rfl rfl ?_ ?_ ?_
    · intro b i hf; cases hf; rfl
    · rw [hp]; exact id
    · rw [hp]; rfl
  | store hpc _ => exact data_store hctl h hpc rfl rfl rfl rfl
  | endPanic hc hp =>
    rw [(hctl.running (congrArg op hp)).2] at hc
    cases hc
  | endLast _ _ hp =>
    exact data_end (c := .endRel true) hctl h hp nofun rfl rfl rfl rfl rfl
  | endMore _ _ hp =>
    exact data_end (c := .endWakeAcq) hctl h hp nofun rfl rfl rfl rfl rfl
  | wake hc hk hp =>
    exact data_wake h (congrArg op hp) hc hk (congrArg past hp) rfl rfl rfl rfl
  | point hp =>
    exact data_point h (congrArg op hp) rfl rfl rfl rfl
  | clear hp =>
    exact data_clear hctl h (congrArg commit hp) (congrArg past hp) rfl rfl rfl rfl
  | _ =>
    rename_i hp
    refine data_frame h rfl rfl rfl rfl nofun ?_ ?_
    · rw [hp]; exact id
    · rw [hp]; rfl

theorem reach_data [Fintype P] (h : Reach size s) : Ctl s ∧ Data s := by
  refine run_inv (I := fun s => Ctl s ∧ Data s) ⟨ctl_init, data_init⟩ ?_ h
  rintro s1 s2 ⟨h1, h2⟩ ⟨q, b, hs⟩
  exact ⟨step_ctl h1 hs, step_data h1 h2 hs⟩

end Data

/-- `log_write` runs inside an operation. -/
theorem inLogWrite_op (c : Pc) (hc : c.inLogWrite = true) : c.kind.op = true := by
  cases c with
  | logTest b | logTest2 b | logTest3 b | logAcq b | logScan b | logStore b i | logRel => rfl
  | _ => cases hc

/-- **Group commit.** In every state of every interleaving: while `committing` is set,
    `outstanding` is zero and no process is inside `log_write`; the header lists no block
    twice; and when a commit is about to write the header, what it lists is what the
    operations logged that ended since the previous commit, and no operation is in
    progress that could have logged any of it. -/
theorem group_commit [Fintype P] {size : Nat} {s : St P} (hr : Reach size s) :
    (s.committing = true → s.outstanding = 0 ∧ ∀ q, (s.pc q).inLogWrite = false) ∧ s.lh.Nodup ∧
    ∀ p, s.pc p = .writeHead → (∀ b, b ∈ s.lh ↔ b ∈ s.ended) ∧ ∀ q, (s.pc q).kind.op = false ∧ s.mine q = [] := by
  obtain ⟨hctl, hdata⟩ := reach_data hr
  have hnoOp : s.committing = true → ∀ q, (s.pc q).kind.op = false := by
    intro hc q
    cases hq : (s.pc q).kind.op with
    | false => rfl
    | true =>
      rw [(hctl.running hq).2] at hc
      cases hc
  refine ⟨?_, hdata.nodup, ?_⟩
  · intro hc
    refine ⟨hctl.idle hc, fun q => ?_⟩
    cases hq : (s.pc q).inLogWrite with
    | false => rfl
    | true =>
      have hop := inLogWrite_op _ hq
      rw [hnoOp hc q] at hop
      cases hop
  · intro p hp
    have hcommit : (s.pc p).kind.commit = true := by rw [hp]; rfl
    have hc := hctl.committing_of hcommit
    have hmine : ∀ q, s.mine q = [] := fun q => hdata.mine q (hnoOp hc q)
    have hpast : ∀ q, (s.pc q).kind.past = false := by
      -- only the committing process can be past the commit point, and it is not
      intro q
      cases hq : (s.pc q).kind.past with
      | false => rfl
      | true =>
        obtain ⟨o, ho, _⟩ := hctl.commit
        have heq : q = p := ho.unique (past_commit _ hq) hcommit
        rw [heq, hp] at hq
        cases hq
    refine ⟨fun b => ?_, fun q => ⟨hnoOp hc q, hmine q⟩⟩
    rw [hdata.logged hpast b]
    constructor
    · rintro (h1 | ⟨q, hq⟩)
      · exact h1
      · rw [hmine q] at hq
        cases hq
    · exact .inl

/-- One process logs block 5 and ends its operation, up to the header write. -/
def oneOp : List (Fin 1 × Act) :=
  [(0, .go), (0, .go), (0, .go), (0, .go), (0, .log 5), (0, .go), (0, .go), (0, .go), (0, .go),
    (0, .go), (0, .go), (0, .go), (0, .finish), (0, .go), (0, .go), (0, .go), (0, .go), (0, .go)]

/-- Two operations overlap, `p` logs block 5 and `q` block 6, and `q` ends last, up to the header write. -/
def overlap (p q : Fin 2) : List (Fin 2 × Act) :=
  let go := fun (r : Fin 2) n => replicate n (r, Act.go)
  go p 4 ++ go q 4 ++ (p, .log 5) :: go p 7 ++ (q, .log 6) :: go q 7 ++ (p, .finish) :: go p 5 ++ (q, .finish) :: go q 5

/-- At the commit of both operations the header lists what both have logged. -/
theorem group_commit_two : ∃ s : St (Fin 2), Reach 30 s ∧ s.pc 1 = .writeHead ∧ s.lh = [5, 6] ∧
    ∀ b, b ∈ s.lh ↔ b ∈ s.ended := by
  have hrun : ((runActs 30 (overlap 0 1) (init (Fin 2))).map fun s => (s.pc 1, s.lh)) = some (.writeHead, [5, 6]) := by
    decide +kernel
  obtain ⟨s, hs, heq⟩ := Option.map_eq_some_iff.mp hrun
  have hr := runActs_reach hs
  have hpc : s.pc 1 = .writeHead := congrArg Prod.fst heq
  exact ⟨s, hr, hpc, congrArg Prod.snd heq, ((group_commit hr).2.2 1 hpc).1⟩

/-- **An idle log is empty.** When no operation and no commit is running, in any interleaving, the header lists
    nothing and all that was ever logged is committed. -/
theorem idle_log_empty [Fintype P] {size : Nat} {s : St P} (hr : Reach size s)
    (hidle : ∀ q, (s.pc q).kind.op = false ∧ (s.pc q).kind.commit = false) :
    s.outstanding = 0 ∧ s.committing = false ∧ s.lh = [] ∧ s.ended = [] := by
  obtain ⟨hctl, hdata⟩ := reach_data hr
  have hcount : count (fun c : Pc => c.kind.op) s.pc = 0 := count_eq_zero.mpr fun q => (hidle q).1
  have hzero : s.outstanding = 0 := by rw [hctl.count, hcount]; rfl
  have hflag : s.committing = false := by
    obtain ⟨_ | q, ho, hflag⟩ := hctl.commit
    · exact hflag
    · cases (hidle q).2.symm.trans ((ho q).mpr rfl)
  have hempty := hctl.empty hzero hflag
  have hpast : ∀ q, (s.pc q).kind.past = false := fun q => eq_false_of_ne_true fun hq => by
    cases (hidle q).2.symm.trans (past_commit _ hq)
  refine ⟨hzero, hflag, hempty, eq_nil_iff_forall_not_mem.mpr fun b hb => ?_⟩
  have hlh := (hdata.logged hpast b).mpr (.inl hb)
  rw [hempty] at hlh
  cases hlh

theorem idle_log_empty_one : ∃ s : St (Fin 1), Reach 30 s ∧ s.pc 0 = .out ∧ s.ended = [] := by
  obtain ⟨s, hs, hpc⟩ : ∃ s, runActs 30 (oneOp ++ replicate 9 (0, .go)) (init (Fin 1)) = some s ∧
      ∀ q, s.pc q = .out := ⟨_, rfl, by decide⟩
  have hidle := idle_log_empty (runActs_reach hs) fun q => by rw [hpc q]; exact ⟨rfl, rfl⟩
  exact ⟨s, runActs_reach hs, hpc 0, hidle.2.2.2⟩

end Xv6Group
