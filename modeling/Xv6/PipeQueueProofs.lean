import Xv6.PipeCodeProofs

/-!
# A pipe is a lossless queue

What is true in every state of every interleaving: the two locks belong to the processes in
their sections, a process that holds the pipe's lock knows what its last test told it, the ring
holds at most `PIPESIZE` bytes, and the bytes delivered followed by the bytes in the ring are the
bytes stored, in order. Each conjunct is kept by every effect a step can have.
-/

namespace Xv6Pipe

open Interleave RingBuffer Function List Prod Option

variable {P : Type}

/-! ## The other processes -/

/-- A process that does not take the step stays where it is, or is woken. -/
inductive Woken : Pc P → Pc P → Prop
  | same (c : Pc P) : Woken c c
  | reader (n : Nat) : Woken (.rSleeping n) (.rAcq n)
  | writer (buf : List UInt8) (i : Nat) : Woken (.wSleeping buf i) (.wReacq buf i)

theorem woken_awakeR (c : Pc P) : Woken c (awakeR c) := by
  cases c with
  | rSleeping n => exact .reader n
  | _ => exact .same _

theorem woken_awakeW (c : Pc P) : Woken c (awakeW c) := by
  cases c with
  | wSleeping buf i => exact .writer buf i
  | _ => exact .same _

theorem woken_rouse (c : Pc P) : Woken c (rouse c) := by
  cases c with
  | rSleeping n => exact .reader n
  | wSleeping buf i => exact .writer buf i
  | _ => exact .same _

section Woken

variable {c c' : Pc P}

section

variable (h : Woken c c')
include h

theorem Woken.lock : c'.kind.lock = c.kind.lock := by cases h <;> rfl
theorem Woken.plock : c'.kind.plock = c.kind.plock := by cases h <;> rfl
theorem Woken.owesR : c'.kind.owesR = c.kind.owesR := by cases h <;> rfl
theorem Woken.owesW : c'.kind.owesW = c.kind.owesW := by cases h <;> rfl
theorem Woken.progress : c'.progress = c.progress := by cases h <;> rfl

theorem Woken.inside (hi : c.inside) : c'.inside := by cases h <;> exact hi

theorem Woken.rwait (hr : c'.kind.rwait = true) : c.kind.rwait = true := by
  cases h with
  | same => exact hr
  | reader => cases hr
  | writer => cases hr

theorem Woken.wwait (hr : c'.kind.wwait = true) : c.kind.wwait = true := by
  cases h with
  | same => exact hr
  | reader => cases hr
  | writer => cases hr

theorem Woken.fact {x : Pipe} (hf : Fact c x) : Fact c' x := by
  cases h with
  | same => exact hf
  | reader => trivial
  | writer => trivial

end

end Woken

variable [DecidableEq P] {p q : P} {a : Act P} {s s' : St P}

theorem Effect.others (h : Effect p s s') (hq : q ≠ p) : Woken (s.pc q) (s'.pc q) := by
  have hsame : ∀ c : Pc P, Woken (s.pc q) (update s.pc p c q) := by
    intro c
    rw [update_of_ne hq]
    exact .same _
  cases h with
  | @wakeR c _ _ _ _ _ _ _ =>
    show Woken _ (update (fun q => awakeR (s.pc q)) p c q)
    rw [update_of_ne hq]
    exact woken_awakeR _
  | @wakeW c _ _ _ _ _ _ _ =>
    show Woken _ (update (fun q => awakeW (s.pc q)) p c q)
    rw [update_of_ne hq]
    exact woken_awakeW _
  | @kill t _ =>
    show Woken _ (update (update s.pc t (rouse (s.pc t))) p .out q)
    rw [update_of_ne hq, update_apply]
    split_ifs with hqt
    · subst hqt
      exact woken_rouse _
    · exact .same _
  | _ => exact hsame _

/-! ## The invariant -/

structure Inv (s : St P) : Prop where
  lock : Owner (fun c : Pc P => c.kind.lock) s.pc s.lock
  plock : Owner (fun c : Pc P => c.kind.plock) s.pc s.plock
  facts : ∀ q, Fact (s.pc q) s.pipe
  inside : ∀ q, (s.pc q).inside
  room : s.pipe.ring.count ≤ PIPESIZE
  fifo : s.delivered.map snd ++ s.pipe.ring.contents PIPESIZE = s.stored.map snd
  order : ∀ q, (s.stored.filter fun x => x.1 = q).map snd = s.past q ++ (s.pc q).progress

theorem inv_init (data : Nat → UInt8) : Inv (init P data) := by
  have hnone : ∀ sec : Pc P → Bool, sec .out = false → Owner sec (init P data).pc none := by
    intro sec hsec q
    show sec .out = true ↔ none = some q
    rw [hsec]
    constructor
    · exact nofun
    · exact nofun
  have hzero : (init P data).pipe.ring.count = 0 := count_eq_zero.mpr rfl
  exact ⟨hnone _ rfl, hnone _ rfl, fun _ => trivial, fun _ => trivial,
    hzero ▸ Nat.zero_le _, contents_nil hzero, fun _ => rfl⟩

theorem kind_self {α : Type} {g : Kind → α} {f : P → Pc P} {c : Pc P} {b : α} (hc : g c.kind = b) :
    g (update f p c p).kind = b := by
  rw [update_self]
  exact hc

theorem inv_lock (h : Inv s) (he : Effect p s s') : Owner (fun c : Pc P => c.kind.lock) s'.pc s'.lock := by
  have hothers : ∀ q, q ≠ p → (s'.pc q).kind.lock = (s.pc q).kind.lock :=
    fun q hq => (he.others hq).lock
  -- the moves that neither take nor give up the lock
  have hstay := owner_stay h.lock hothers
  cases he with
  | move hk _ _ _ | pacq _ _ hk _ _ _ | sleep _ hk _ _ _ => exact hstay (kind_self (by rw [hk]))
  | fail hpc _ | waitW hpc _ _ _ | waitR hpc _ _ | take hpc _ | store hpc _ _ | copy hpc _ | close hpc
  | kill hpc => exact hstay (kind_self (by rw [hpc]; rfl))
  | acq hfree _ hk _ _ _ =>
    have hl := h.lock
    rw [hfree] at hl
    exact owner_acquire hl (by rw [hk])
  | rel hl _ _ hk _ _ => exact owner_release h.lock hl (by rw [hk])
  | leave hk _ => exact owner_release h.lock (by rw [hk]) rfl
  | wakeR _ _ _ hk _ _ _ =>
    exact hstay (kind_self (f := fun q => awakeR (s.pc q)) (by rw [hk]))
  | wakeW _ _ _ hk _ _ _ =>
    exact hstay (kind_self (f := fun q => awakeW (s.pc q)) (by rw [hk]))

theorem inv_plock (h : Inv s) (he : Effect p s s') : Owner (fun c : Pc P => c.kind.plock) s'.pc s'.plock := by
  have hothers : ∀ q, q ≠ p → (s'.pc q).kind.plock = (s.pc q).kind.plock :=
    fun q hq => (he.others hq).plock
  have hstay := owner_stay h.plock hothers
  -- the moves that give it up
  have hgive : (s'.pc p).kind.plock = false → (s.pc p).kind.plock = true → s'.plock = none →
      Owner (fun c : Pc P => c.kind.plock) s'.pc s'.plock := by
    intro hk hk0 hl
    refine owner_step h.plock hothers (fun hin => ?_) fun _ => ?_
    · exact absurd (hk.symm.trans hin) (by decide)
    · rw [hl, hk0, if_pos rfl]
  cases he with
  | move hk _ _ _ | rel _ _ _ hk _ _ => exact hstay (kind_self (by rw [hk]))
  | fail hpc _ | waitW hpc _ _ _ | waitR hpc _ _ | take hpc _ | store hpc _ _ | copy hpc _ | close hpc =>
    exact hstay (kind_self (by rw [hpc]; rfl))
  | acq _ hk0 hk _ _ _ => exact hstay (kind_self (by rw [hk, hk0]))
  | leave hk _ => exact hstay (kind_self (by rw [hk]; rfl))
  | pacq hfree _ hk _ _ _ =>
    have hl := h.plock
    rw [hfree] at hl
    exact owner_acquire hl (by rw [hk])
  | sleep hl hk _ _ _ => exact hgive (kind_self (by rw [hk])) hl rfl
  | wakeR _ hpl _ hk _ _ _ =>
    exact hgive (kind_self (f := fun q => awakeR (s.pc q)) (by rw [hk])) hpl rfl
  | wakeW _ hpl _ hk _ _ _ =>
    exact hgive (kind_self (f := fun q => awakeW (s.pc q)) (by rw [hk])) hpl rfl
  | kill hpc => exact hgive (kind_self rfl) (by rw [hpc]; rfl) rfl

/-- Only a process that holds the lock changes the pipe. -/
theorem Effect.pipe (he : Effect p s s') : s'.pipe = s.pipe ∨ (s.pc p).kind.lock = true := by
  cases he with
  | store hpc _ _ | copy hpc _ | close hpc => right; rw [hpc]; rfl
  | _ => exact .inl rfl

/-- What the process that took the step knows now. -/
theorem Effect.fact (he : Effect p s s') : Fact (s'.pc p) s'.pipe := by
  have hself : ∀ {f : P → Pc P} {c : Pc P} {x : Pipe}, Fact c x → Fact (update f p c p) x :=
    fun hf => by rw [update_self]; exact hf
  cases he with
  | move _ hf _ _ | acq _ _ _ hf _ _ | pacq _ _ _ hf _ _ => exact hself hf
  | fail _ _ | waitW _ _ _ _ | waitR _ _ _ | leave _ _ | store _ _ _ | close _ | kill _ => exact hself trivial
  | take _ hsome => exact hself fun _ => hsome
  | rel _ _ _ hk _ _ => exact hself (fact_of_unlocked _ (congrArg Kind.lock hk))
  | sleep _ hk hl' _ _ => exact hself (fact_of_unlocked _ ((congrArg Kind.lock hk).trans hl'))
  | wakeR _ _ _ _ hf _ _ => exact hself (f := fun q => awakeR (s.pc q)) hf
  | wakeW _ _ _ _ hf _ _ => exact hself (f := fun q => awakeW (s.pc q)) hf
  | copy _ _ => exact hself fun h0 => absurd h0 (Nat.succ_ne_zero _)

theorem inv_facts (h : Inv s) (he : Effect p s s') : ∀ q, Fact (s'.pc q) s'.pipe := by
  intro q
  by_cases hq : q = p
  · subst hq
    exact he.fact
  · have hw := he.others hq
    rcases he.pipe with hx | hl
    · rw [hx]
      exact hw.fact (h.facts q)
    · -- the lock is with `p`, so `q` knows nothing
      refine fact_of_unlocked _ ?_
      rw [hw.lock]
      cases hlq : (s.pc q).kind.lock with
      | false => rfl
      | true => exact absurd (h.lock.unique hlq hl) hq

theorem inv_inside (h : Inv s) (he : Effect p s s') : ∀ q, (s'.pc q).inside := by
  have hself : ∀ {f : P → Pc P} {c : Pc P}, c.inside → (update f p c p).inside :=
    fun hi => by rw [update_self]; exact hi
  intro q
  by_cases hq : q = p
  · subst hq
    cases he with
    | move _ _ _ hi | waitW _ _ _ hi | acq _ _ _ _ _ hi | rel _ _ _ _ _ hi | pacq _ _ _ _ _ hi
    | sleep _ _ _ _ hi => exact hself hi
    | wakeR _ _ _ _ _ _ hi => exact hself (f := fun q => awakeR (s.pc q)) hi
    | wakeW _ _ _ _ _ _ hi => exact hself (f := fun q => awakeW (s.pc q)) hi
    | _ => exact hself trivial
  · exact (he.others hq).inside (h.inside q)

/-! ## The queue -/

theorem pipesize_dvd : PIPESIZE ∣ 2 ^ 32 := ⟨2 ^ 23, by decide⟩

theorem pipesize_lt : PIPESIZE < 2 ^ 32 := by decide

/-- A pipe that is not full has room for a byte. -/
theorem room_of_not_full {x : Pipe} (h : x.ring.count ≤ PIPESIZE) (hf : ¬ x.full) : x.ring.count < PIPESIZE := by
  refine lt_of_le_of_ne h fun heq => hf ?_
  exact (count_eq_cap pipesize_lt).mp heq

/-- A pipe that is not empty holds a byte. -/
theorem pos_of_not_empty {x : Pipe} (hf : ¬ x.empty) : 0 < x.ring.count :=
  Nat.pos_of_ne_zero fun h0 => hf (count_eq_zero.mp h0)

theorem inv_room (h : Inv s) (he : Effect p s s') : s'.pipe.ring.count ≤ PIPESIZE := by
  cases he with
  | @store buf i _ hroom _ =>
    have hlt := room_of_not_full h.room hroom
    have hcap := pipesize_lt
    rw [count_push (by omega)]
    exact hlt
  | copy _ hsome =>
    have := count_pop (pos_of_not_empty hsome)
    have hroom := h.room
    show s.pipe.ring.pop.count ≤ PIPESIZE
    omega
  | @close w _ => cases w <;> exact h.room
  | _ => exact h.room

theorem inv_fifo (h : Inv s) (he : Effect p s s') :
    s'.delivered.map snd ++ s'.pipe.ring.contents PIPESIZE = s'.stored.map snd := by
  have hfifo := h.fifo
  cases he with
  | @store buf i _ hroom _ =>
    rw [contents_push pipesize_dvd pipesize_lt (room_of_not_full h.room hroom), map_append, ← hfifo, append_assoc]
    rfl
  | copy _ hsome =>
    show (s.delivered ++ [(p, s.pipe.ring.front PIPESIZE)]).map snd
      ++ s.pipe.ring.pop.contents PIPESIZE = s.stored.map snd
    rw [← hfifo, contents_pop pipesize_dvd (pos_of_not_empty hsome), map_append, append_assoc]
    rfl
  | @close w _ => cases w <;> exact hfifo
  | _ => exact hfifo

/-- The bytes of one process among the bytes stored. -/
def bytesBy (q : P) (l : List (P × UInt8)) : List UInt8 :=
  (l.filter fun x => x.1 = q).map snd

theorem inv_order (h : Inv s) (he : Effect p s s') : ∀ q, bytesBy q s'.stored = s'.past q ++ (s'.pc q).progress := by
  intro q
  have hord : bytesBy q s.stored = s.past q ++ (s.pc q).progress := h.order q
  by_cases hq : q = p
  · subst hq
    have hself : ∀ {f : P → Pc P} {c : Pc P}, c.progress = (s.pc q).progress →
        bytesBy q s.stored = s.past q ++ (update f q c q).progress :=
      fun hp => by rw [update_self, hp]; exact hord
    cases he with
    | move _ _ hp _ | acq _ _ _ _ hp _ | rel _ _ _ _ hp _ | pacq _ _ _ _ hp _ | sleep _ _ _ hp _ => exact hself hp
    | fail hpc _ | waitW hpc _ _ _ | waitR hpc _ _ | take hpc _ | copy hpc _ | close hpc | kill hpc =>
      exact hself (by rw [hpc]; rfl)
    | @leave buf i _ hp =>
      show bytesBy q s.stored = update s.past q (s.past q ++ buf.take i) q
        ++ (update s.pc q .out q).progress
      rw [update_self, update_self, hord, hp]
      exact (append_nil _).symm
    | wakeR _ _ _ _ _ hp _ => exact hself (f := fun q => awakeR (s.pc q)) hp
    | wakeW _ _ _ _ _ hp _ => exact hself (f := fun q => awakeW (s.pc q)) hp
    | @store buf i hpc _ hi =>
      show bytesBy q (s.stored ++ [(q, buf.getD i 0)]) = s.past q
        ++ (update s.pc q (.wFor buf (i + 1)) q).progress
      have hnew : bytesBy q (s.stored ++ [(q, buf.getD i 0)])
          = bytesBy q s.stored ++ [buf.getD i 0] := by simp [bytesBy]
      rw [hnew, hord, hpc, update_self, append_assoc]
      congr 1
      show buf.take i ++ [buf.getD i 0] = buf.take (i + 1)
      rw [take_add_one, getD_eq_getElem?_getD, getElem?_eq_getElem hi]
      rfl
  · rw [(he.others hq).progress]
    cases he with
    | @leave buf i _ _ =>
      show bytesBy q s.stored = update s.past p _ q ++ _
      rw [update_of_ne hq]
      exact hord
    | @store buf i _ _ _ =>
      show bytesBy q (s.stored ++ [(p, buf.getD i 0)]) = s.past q ++ _
      rw [← hord]
      simp [bytesBy, Ne.symm hq]
    | _ => exact hord

/-- **Every step keeps the invariant.** -/
theorem step_inv (h : Inv s) (hs : step p a s = some s') : Inv s' := by
  have he := step_effect (h.facts p) (h.inside p) hs
  exact ⟨inv_lock h he, inv_plock h he, inv_facts h he, inv_inside h he, inv_room h he, inv_fifo h he, inv_order h he⟩

theorem reach_inv (h : Reach s) : Inv s := by
  obtain ⟨data, hrun⟩ := h
  refine run_inv (inv_init data) ?_ hrun
  rintro s1 s2 h1 ⟨q, b, hs⟩
  exact step_inv h1 hs

/-- **A pipe is a lossless FIFO.** In every state of every interleaving, the counters are at
    most `PIPESIZE` apart modulo the word size; the bytes delivered to readers, in the order of
    reading, followed by the bytes in the buffer, are the bytes stored by writers, in the order
    of storing; the bytes of each writer are those of its finished calls followed by those
    its call in progress has stored, in their own order; and a reader that wanted bytes and
    returns 0 does so with the buffer empty and the write end closed. -/
theorem pipe_lossless_fifo (hr : Reach s) : (s.pipe.ring.nwrite - s.pipe.ring.nread).toNat ≤ PIPESIZE ∧
    s.delivered.map snd ++ s.pipe.ring.contents PIPESIZE = s.stored.map snd ∧
    (∀ q, (s.stored.filter fun x => x.1 = q).map snd = s.past q ++ (s.pc q).progress) ∧
    ∀ q n, s.pc q = .rRel n 0 → 0 < n → s.pipe.empty ∧ s.pipe.writeopen = false := by
  have h := reach_inv hr
  refine ⟨h.room, h.fifo, h.order, ?_⟩
  intro q n hq hn
  have hf := h.facts q
  rw [hq] at hf
  exact hf rfl hn


/-- A writer stores two bytes, a reader takes one of them, and the other is in the buffer. -/
theorem pipe_lossless_fifo_two : ∃ s : St (Fin 2), Reach s ∧ s.delivered = [(1, 7)] ∧
      s.delivered.map snd ++ s.pipe.ring.contents PIPESIZE = [7, 8] := by
  let l : List (Fin 2 × Act (Fin 2)) :=
    (0, .write [7, 8]) :: replicate 11 (0, .go) ++ (1, .read 1) :: replicate 4 (1, .go)
  have hsome : (runActs l (init (Fin 2) fun _ => 0)).isSome = true := by decide
  obtain ⟨s, hs⟩ := isSome_iff_exists.mp hsome
  have hr : Reach s := ⟨_, runActs_trans hs⟩
  have hd : (runActs l (init (Fin 2) fun _ => 0)).map (·.delivered) = some [(1, 7)] := by decide
  have hw : (runActs l (init (Fin 2) fun _ => 0)).map (·.stored) = some [(0, 7), (0, 8)] := by
    decide
  rw [hs] at hd hw
  have hstored : s.stored = [(0, 7), (0, 8)] := some.inj hw
  have hfifo := (pipe_lossless_fifo hr).2.1
  rw [hstored] at hfifo
  exact ⟨s, hr, some.inj hd, hfifo⟩

end Xv6Pipe
