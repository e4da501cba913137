import Xv6.BcacheCodeProofs

/-!
# The invariant of the buffer cache, and what a step can do

The invariant comes in four parts: who holds the two locks; the ring of buffers and the blocks
they are for; which process has got which buffer; and what the flags and the queue say about the
data. A step has one of a few effects (`step_effect`), and each part is kept by each of them. This
file has the first three parts.
-/

namespace Xv6Bcache

open Interleave LinkedRing Xv6Disk Function Option List

variable {P α : Type} {b : B} {c : Pc}

/-! ## The invariant -/

/-- The agents that hold `idelock`. -/
def ideView (s : St P α) : Option P → Bool
  | none => s.handler.ideLocked
  | some p => (s.pc p).ideLocked

structure LocksOk (s : St P α) : Prop where
  lock : Owner Pc.locked s.pc s.lock
  ide : Owner id (ideView s) s.idelock

/-- The first loop of `bget` is at `x`, and the buffers before `x` are not for block `k`. -/
def Scanned (s : St P α) (k : Key) (x : Option B) : Prop :=
  ∃ pre post, Ring s.next s.prev (pre ++ post) ∧ (∀ b, b ∈ pre ++ post) ∧ x = post.head? ∧ ∀ b ∈ pre, (s.buf b).key ≠ k

structure KeysOk (s : St P α) : Prop where
  ring : ∃ order, Ring s.next s.prev order ∧ ∀ b, b ∈ order
  uniq : ∀ b b', inUse (s.buf b).key.1 → (s.buf b).key = (s.buf b').key → b = b'
  scan : ∀ p k x, s.pc p = .gScan k x → Scanned s k x
  free : ∀ p k x, s.pc p = .gFree k x → ∀ b, (s.buf b).key ≠ k
  want : ∀ p k, (s.pc p).want = some k → inUse k.1
  got : ∀ p k b, (s.pc p).want = some k → (s.pc p).cur = some b → (s.buf b).key = k

structure HoldsOk (s : St P α) : Prop where
  busy : ∀ p b, s.held p b = true → (s.buf b).busy = true
  once : ∀ p q b, s.held p b = true → s.held q b = true → p = q
  cur : ∀ p b, (s.pc p).cur = some b → s.held p b = true
  use : ∀ p b, s.held p b = true → inUse (s.buf b).key.1

/-- The buffer needs nothing from the disk. -/
def Buf.settled (x : Buf α) : Prop := x.valid = true ∧ x.dirty = false

structure DataOk (s : St P α) : Prop where
  pend : ∀ b, s.pending b = true → ∃ p, s.held p b = true ∧ (s.pc p).cur ≠ some b
  ready : ∀ p b, s.held p b = true → (s.pc p).loads = some b ∨ (s.buf b).valid = true
  dirty : ∀ b, (s.buf b).dirty = true → (s.buf b).valid = true
  asks : ∀ p b, (s.pc p).asks = some b → ¬ (s.buf b).settled
  nodup : s.idequeue.Nodup
  queued : ∀ b ∈ s.idequeue, (∃ p, (s.pc p).waits = some b) ∧ ¬ (s.buf b).settled
  waits : ∀ p b, (s.pc p).waits = some b → b ∈ s.idequeue ∨ (s.buf b).settled
  first : ∀ b, s.idequeue.head? = some b → (s.buf b).dirty = true → s.disk (drive (s.buf b).key) = (s.buf b).data
  value : ∀ b, (s.buf b).valid = true → inUse (s.buf b).key.1 ∧ (s.buf b).data = s.last (s.buf b).key
  clean : ∀ k, inUse k.1 → s.disk k = s.last k ∨ ∃ b, (s.buf b).key = k ∧ ((s.buf b).dirty = true ∨ s.pending b = true)

structure Inv (s : St P α) : Prop where
  locks : LocksOk s
  keys : KeysOk s
  holds : HoldsOk s
  data : DataOk s

theorem drive_inUse {k : Key} (h : inUse k.1) : drive k = k := by
  obtain ⟨dev, blockno⟩ := k
  show (dev &&& 1, blockno) = (dev, blockno)
  rcases h with h | h
  · rw [show dev = 0 from h, UInt32.zero_and]
  · rw [show dev = 1 from h, UInt32.and_self]

/-! ## Attributes of control points -/

theorem loads_cur (h : c.loads = some b) : c.cur = some b := by
  cases c <;> first | exact h | exact nomatch h

theorem asks_cur (h : c.asks = some b) : c.cur = some b := by
  cases c <;> first | exact h | exact nomatch h

theorem waits_cur (h : c.waits = some b) : c.cur = some b := by
  cases c <;> first | exact h | exact nomatch h

theorem asks_waits {b b' : B} (h : c.asks = some b) (h' : c.waits = some b') : False := by
  cases c <;> simp only [Pc.asks, Pc.waits, reduceCtorEq] at h h'

section Facts

variable {s : St P α} {p q : P} {b : B}

/-- A buffer that nobody has marked busy is held by nobody. -/
theorem HoldsOk.free (h : HoldsOk s) (hb : (s.buf b).busy = false) (p : P) : s.held p b = false := by
  cases hp : s.held p b with
  | false => rfl
  | true => exact absurd ((h.busy p b hp).symm.trans hb) (by decide)

/-- The buffer of a call in progress is not one that is not busy. -/
theorem HoldsOk.cur_ne (h : HoldsOk s) (hb : (s.buf b).busy = false) {b' : B}
    (hc : (s.pc p).cur = some b') : b' ≠ b := by
  rintro rfl
  exact absurd ((h.busy p b' (h.cur p b' hc)).symm.trans hb) (by decide)

/-- The buffer of a call in progress is not one that another process holds. -/
theorem HoldsOk.cur_other (h : HoldsOk s) (hp : s.held p b = true) (hpc : (s.pc p).cur = none)
    {b' : B} (hc : (s.pc q).cur = some b') : b' ≠ b := by
  rintro rfl
  have hq := h.once q p b' (h.cur q b' hc) hp
  subst hq
  cases hpc.symm.trans hc

/-- A process that is outside of the calls has buffers with data. -/
theorem DataOk.ready_out (h : DataOk s) (hp : s.held p b = true) (hpc : (s.pc p).cur = none) :
    (s.buf b).valid = true := by
  rcases h.ready p b hp with hl | hv
  · cases hpc.symm.trans (loads_cur hl)
  · exact hv

theorem DataOk.queued_held (h : DataOk s) (hh : HoldsOk s) (hb : b ∈ s.idequeue) :
    ∃ p, s.held p b = true ∧ (s.pc p).waits = some b := by
  obtain ⟨⟨p, hp⟩, -⟩ := h.queued b hb
  exact ⟨p, hh.cur p b (waits_cur hp), hp⟩

/-- A process that does not wait for a buffer it holds has not put it into the queue. -/
theorem DataOk.not_queued (h : DataOk s) (hh : HoldsOk s) (hp : s.held p b = true)
    (hw : (s.pc p).waits ≠ some b) : b ∉ s.idequeue := by
  intro hb
  obtain ⟨q, hq, hqw⟩ := h.queued_held hh hb
  have hpq := hh.once q p b hq hp
  subst hpq
  exact hw hqw

end Facts


/-! ## What a step can do -/

-- the lemmas about states need no decidable equality of processes
set_option linter.unusedSectionVars false

variable [DecidableEq P]

/-- A move of `p` from `c` to `d`, which changes no buffer. -/
structure Move (s : St P α) (p : P) (c d : Pc) (l : Option P) (m : Option (Option P)) : Prop where
  lock : (d.locked = true → l = some p ∧ (s.lock = none ∨ c.locked = true)) ∧
    (d.locked = false → l = if c.locked = true then none else s.lock)
  ide : (d.ideLocked = true → m = some (some p) ∧ (s.idelock = none ∨ c.ideLocked = true)) ∧
    (d.ideLocked = false → m = if c.ideLocked = true then none else s.idelock)
  scan : ∀ k x, d = .gScan k x → Scanned s k x
  free : ∀ k x, d = .gFree k x → ∀ b, (s.buf b).key ≠ k
  want : ∀ k, d.want = some k → inUse k.1 ∧ ∀ b, d.cur = some b → (s.buf b).key = k
  cur : ∀ b, d.cur = some b → c.cur = some b ∨ (s.held p b = true ∧ s.pending b = false)
  loads : ∀ b, c.loads = some b → d.loads = some b ∨ (s.buf b).valid = true
  asks : ∀ b, d.asks = some b → ¬ (s.buf b).settled
  waits : d.waits = c.waits ∨ (d.waits = none ∧ ∀ b, c.waits = some b → b ∉ s.idequeue)

/-- The effects that a step of `p` can have. -/
inductive Effect (p : P) (s : St P α) : St P α → Prop where
  | move {d : Pc} {l : Option P} {m : Option (Option P)} (h : Move s p (s.pc p) d l m) :
      Effect p s { s.to p d with lock := l, idelock := m }
  | take {k : Key} {b : B} (hpc : s.pc p = .gScan k (some b)) (hkey : (s.buf b).key = k)
      (hb : (s.buf b).busy = false) :
      Effect p s (((s.setBuf b { s.buf b with busy := true }).hold p b true).to p (.gRel k b))
  | recycle {k : Key} {b : B} {x : Option B} (hpc : s.pc p = .gFree k x)
      (hb : (s.buf b).busy = false) (hd : (s.buf b).dirty = false) :
      Effect p s (((s.setBuf b { s.buf b with
          dev := k.1, blockno := k.2, busy := true, valid := false, dirty := false }).hold
        p b true).to p (.gRel k b))
  | relink {b : B} (hpc : s.pc p = .lLink b) :
      Effect p s { s.to p (.lBusy b) with
        next := (push b (unlink b (s.next, s.prev))).1, prev := (push b (unlink b (s.next, s.prev))).2 }
  | drop {b : B} (hpc : s.pc p = .lBusy b) :
      Effect p s (((s.setBuf b { s.buf b with busy := false }).hold p b false).to p .lRel)
  /-- a store, `log_write`, or the first line of `bwrite` -/
  | write {b : B} {x : Buf α} {d : Pc} {last : Key → α} {pending : B → Bool}
      (hpc : s.pc p = .out) (hh : s.held p b = true) (hkey : x.key = (s.buf b).key)
      (hvalid : x.valid = (s.buf b).valid) (hbusy : x.busy = (s.buf b).busy)
      (hd : d = .out ∨ d = .dCheck b none ∧ pending b = false)
      (hlast : ∀ k, k ≠ (s.buf b).key → last k = s.last k)
      (hdata : x.data = last (s.buf b).key) (hpend : ∀ c, c ≠ b → pending c = s.pending c)
      (hsafe : x.dirty = true ∨ pending b = true) :
      Effect p s { (s.setBuf b x).to p d with last := last, pending := pending }
  | append {b : B} {r : Option Key} {disk : Key → α} (hpc : s.pc p = .dAppend b r)
      (hdisk : (disk = s.disk ∧ (s.idequeue = [] → (s.buf b).dirty = false)) ∨
        ((s.buf b).dirty = true ∧ s.idequeue = [] ∧ disk = update s.disk (drive (s.buf b).key) (s.buf b).data)) :
      Effect p s { s.to p (.dWait b r) with idequeue := s.idequeue ++ [b], disk := disk }

section StepEffect

variable {s s' : St P α} {p : P} {a : Act α} {c : Pc}

theorem acquire_some (h : acquire s p c = some s') : s.lock = none ∧ s' = { s.to p c with lock := some p } := by
  unfold acquire at h
  split_ifs at h with hl
  exact ⟨hl, (some.inj h).symm⟩

theorem acquireIde_some (h : acquireIde s p c = some s') :
    s.idelock = none ∧ s' = { s.to p c with idelock := some (some p) } := by
  unfold acquireIde at h
  split_ifs at h with hl
  exact ⟨hl, (some.inj h).symm⟩

/-- The first loop goes on to the next buffer. -/
theorem Scanned.next {k : Key} {b : B} (h : Scanned s k (some b)) (hk : (s.buf b).key ≠ k) :
    Scanned s k (s.next (some b)) := by
  obtain ⟨pre, post, hr, hall, hx, hpre⟩ := h
  obtain ⟨post', rfl⟩ : ∃ post', post = b :: post' := by
    cases post with
    | nil => cases hx
    | cons c post' => exact ⟨post', by rw [some.inj hx]⟩
  refine ⟨pre ++ [b], post', ?_, ?_, hr.next_cell, ?_⟩
  · rw [append_assoc]; exact hr
  · rw [append_assoc]; exact hall
  · intro c hc
    rcases mem_append.mp hc with hc | hc
    · exact hpre c hc
    · rw [mem_singleton.mp hc]; exact hk

/-- The first loop ends without the block. -/
theorem Scanned.none {k : Key} (h : Scanned s k none) (b : B) : (s.buf b).key ≠ k := by
  obtain ⟨pre, post, -, hall, hx, hpre⟩ := h
  have hpost : post = [] := head?_eq_none_iff.mp hx.symm
  subst hpost
  have hb := hall b
  rw [append_nil] at hb
  exact hpre b hb

/-- The block that a `bread` in progress asked for. -/
theorem KeysOk.asked (h : KeysOk s) {b : B} {r : Option Key} (hr : (s.pc p).want = r)
    (hb : (s.pc p).cur = some b) (k : Key) (hk : r = some k) :
    inUse k.1 ∧ ∀ b', some b = some b' → (s.buf b').key = k := by
  refine ⟨h.want p k (hr.trans hk), ?_⟩
  rintro b' heq
  cases heq
  exact h.got p k b (hr.trans hk) hb

/-- A move that leaves both locks as they are. -/
theorem effect_move {c d : Pc} (hpc : s.pc p = c) (h : Move s p c d s.lock s.idelock)
    (hs : some (s.to p d) = some s') : Effect p s s' := by
  subst hpc
  cases hs
  exact .move h

/-- A process that stays where it is. -/
theorem effect_stay {x : St P α} (hpc : x.pc p = c) (he : Effect p s (x.to p c)) : Effect p s x := by
  have heq : x.to p c = x := by
    subst hpc
    unfold St.to
    rw [update_eq_self]
  rw [← heq]
  exact he

theorem step_effect (h : Inv s) (hs : step p a s = some s') : Effect p s s' := by
  have hlocked : (s.pc p).locked = true → s.lock = some p := (h.locks.lock p).mp
  have hide : (s.pc p).ideLocked = true → s.idelock = some (some p) := (h.locks.ide (some p)).mp
  unfold step at hs
  split at hs
  case h_1 k hpc =>
    split_ifs at hs with hk
    refine effect_move hpc ?_ hs
    constructor <;> simp_all
  case h_2 b v hpc =>
    split_ifs at hs with hh
    cases hs
    refine effect_stay hpc (Effect.write (x := { s.buf b with data := v }) (d := .out) hpc hh rfl rfl
      rfl (.inl rfl) (fun k hk => update_of_ne hk v s.last) ?_
      (fun c hc => update_of_ne hc true s.pending) (.inr ?_))
    · exact (update_self (s.buf b).key v s.last).symm
    · exact update_self b true s.pending
  case h_3 b hpc =>
    split_ifs at hs with hh
    cases hs
    have hv := h.data.ready_out hh (by rw [hpc]; rfl)
    exact effect_stay hpc (Effect.write (x := { s.buf b with dirty := true }) (d := .out) hpc hh rfl
      rfl rfl (.inl rfl) (fun _ _ => rfl) (h.data.value b hv).2
      (fun c hc => update_of_ne hc false s.pending) (.inl rfl))
  case h_4 b hpc =>
    split_ifs at hs with hh
    cases hs
    have hv := h.data.ready_out hh.1 (by rw [hpc]; rfl)
    exact .write (x := { s.buf b with dirty := true }) hpc hh.1 rfl rfl rfl
      (.inr ⟨rfl, update_self b false s.pending⟩) (fun _ _ => rfl) (h.data.value b hv).2
      (fun c hc => update_of_ne hc false s.pending) (.inl rfl)
  case h_5 b hpc =>
    split_ifs at hs with hh
    obtain ⟨hh, hp, -⟩ := hh
    refine effect_move hpc ?_ hs
    constructor <;> simp_all
  case h_6 k hpc =>
    obtain ⟨hfree, rfl⟩ := acquire_some hs
    have hk := h.keys.want p k (by rw [hpc]; rfl)
    have hscan : Scanned s k (s.next none) := by
      obtain ⟨order, hr, hall⟩ := h.keys.ring
      exact ⟨[], order, hr, hall, hr.next_head, nofun⟩
    refine .move (d := .gScan k (s.next none)) (m := s.idelock) ?_
    constructor <;> simp_all
  case h_7 k b hpc =>
    have hk := h.keys.want p k (by rw [hpc]; rfl)
    have hscan := h.keys.scan p k (some b) hpc
    have hl := hlocked (by rw [hpc]; rfl)
    split at hs
    · rename_i hkey
      split at hs
      · rename_i hb
        cases hs
        exact .take hpc hkey hb
      · cases hs
        refine .move (d := .gAcq k) (m := s.idelock) ?_
        constructor <;> simp_all
    · rename_i hkey
      have hnext := hscan.next hkey
      refine effect_move hpc ?_ hs
      constructor <;> simp_all
  case h_8 k hpc =>
    have hk := h.keys.want p k (by rw [hpc]; rfl)
    have hnone := (h.keys.scan p k none hpc).none
    have hl := hlocked (by rw [hpc]; rfl)
    refine effect_move hpc ?_ hs
    constructor <;> simp_all
  case h_9 k b hpc =>
    have hk := h.keys.want p k (by rw [hpc]; rfl)
    have hnone := h.keys.free p k (some b) hpc
    have hl := hlocked (by rw [hpc]; rfl)
    split at hs
    · rename_i hb
      cases hs
      exact .recycle hpc hb.1 hb.2
    · refine effect_move hpc ?_ hs
      constructor <;> simp_all
  case h_10 k b hpc =>
    have hk := h.keys.want p k (by rw [hpc]; rfl)
    have hgot := h.keys.got p k b (by rw [hpc]; rfl) (by rw [hpc]; rfl)
    have hl := hlocked (by rw [hpc]; rfl)
    cases hs
    refine .move (d := .rTest k b) (m := s.idelock) ?_
    constructor <;> simp_all
  case h_11 k b hpc =>
    have hk := h.keys.want p k (by rw [hpc]; rfl)
    have hgot := h.keys.got p k b (by rw [hpc]; rfl) (by rw [hpc]; rfl)
    refine effect_move hpc ?_ hs
    split
    · constructor <;> simp_all
    · constructor <;> simp_all
  case h_12 k b hpc =>
    refine effect_move hpc ?_ hs
    constructor <;> simp_all
  case h_13 b r hpc =>
    have hasked := h.keys.asked (p := p) (b := b) (r := r) (by rw [hpc]; rfl) (by rw [hpc]; rfl)
    split_ifs at hs with hc
    refine effect_move hpc ?_ hs
    refine ⟨?_, ?_, ?_, ?_, hasked, ?_, ?_, ?_, ?_⟩ <;> simp_all [Buf.settled]
  case h_14 b r hpc =>
    have hasked := h.keys.asked (p := p) (b := b) (r := r) (by rw [hpc]; rfl) (by rw [hpc]; rfl)
    have hasks := h.data.asks p b (by rw [hpc]; rfl)
    obtain ⟨hfree, rfl⟩ := acquireIde_some hs
    refine .move (d := .dAppend b r) (l := s.lock) ?_
    refine ⟨?_, ?_, ?_, ?_, hasked, ?_, ?_, ?_, ?_⟩ <;> simp_all
  case h_15 b r hpc =>
    split at hs
    · rename_i hq
      unfold idestart at hs
      split at hs
      · cases hs
      · split at hs
        · rename_i hd
          cases hs
          have he := Effect.append (r := r) hpc (.inr ⟨hd, hq, rfl⟩)
          rw [hq] at he
          exact he
        · rename_i hd
          cases hs
          have he := Effect.append (r := r) hpc (.inl ⟨rfl, fun _ => Bool.eq_false_iff.mpr hd⟩)
          rw [hq] at he
          exact he
    · rename_i hq
      cases hs
      exact .append hpc (.inl ⟨rfl, fun hnil => absurd hnil hq⟩)
  case h_16 b r hpc =>
    have hasked := h.keys.asked (p := p) (b := b) (r := r) (by rw [hpc]; rfl) (by rw [hpc]; rfl)
    have hl := hide (by rw [hpc]; rfl)
    split at hs
    · rename_i hc
      have hout : b ∉ s.idequeue := fun hb => (h.data.queued b hb).2 hc
      refine effect_move hpc ?_ hs
      refine ⟨?_, ?_, ?_, ?_, hasked, ?_, ?_, ?_, ?_⟩ <;> simp_all
    · cases hs
      refine .move (d := .dReacq b r) (l := s.lock) ?_
      refine ⟨?_, ?_, ?_, ?_, hasked, ?_, ?_, ?_, ?_⟩ <;> simp_all
  case h_17 b r hpc =>
    have hasked := h.keys.asked (p := p) (b := b) (r := r) (by rw [hpc]; rfl) (by rw [hpc]; rfl)
    obtain ⟨hfree, rfl⟩ := acquireIde_some hs
    refine .move (d := .dWait b r) (l := s.lock) ?_
    refine ⟨?_, ?_, ?_, ?_, hasked, ?_, ?_, ?_, ?_⟩ <;> simp_all
  case h_18 b r hpc =>
    have hk := h.keys.want p
    have hgot := h.keys.got p
    have hl := hide (by rw [hpc]; rfl)
    cases hs
    refine .move (d := afterIde b r) (l := s.lock) ?_
    cases r with
    | none | some k => constructor <;> simp_all [afterIde]
  case h_19 b hpc =>
    obtain ⟨hfree, rfl⟩ := acquire_some hs
    refine .move (d := .lLink b) (m := s.idelock) ?_
    constructor <;> simp_all
  case h_20 b hpc =>
    cases hs
    exact .relink hpc
  case h_21 b hpc =>
    cases hs
    exact .drop hpc
  case h_22 hpc =>
    have hl := hlocked (by rw [hpc]; rfl)
    cases hs
    refine .move (d := .out) (m := s.idelock) ?_
    constructor <;> simp_all
  case h_23 _ _ =>
    cases hs

end StepEffect

/-! ## The locks -/

section Keep

variable {s s' : St P α} {p : P} {b : B} {x : Buf α}

theorem ideView_step (s s' : St P α) {d : Pc} (hpc : s'.pc = update s.pc p d)
    (hh : s'.handler = s.handler) (q : Option P) (hq : q ≠ some p) : ideView s' q = ideView s q := by
  cases q with
  | none =>
    show s'.handler.ideLocked = s.handler.ideLocked
    rw [hh]
  | some q =>
    have hne : q ≠ p := fun heq => hq (heq ▸ rfl)
    show (s'.pc q).ideLocked = (s.pc q).ideLocked
    rw [hpc, update_of_ne hne]

/-- A step that neither takes nor gives up a lock. -/
theorem locks_same {d : Pc} (h : LocksOk s) (hpc : s'.pc = update s.pc p d)
    (hh : s'.handler = s.handler) (hl : s'.lock = s.lock) (hm : s'.idelock = s.idelock)
    (hd : d.locked = (s.pc p).locked) (hd' : d.ideLocked = (s.pc p).ideLocked) : LocksOk s' := by
  constructor
  · rw [hpc, hl]
    exact owner_same h.lock hd
  · rw [hm]
    intro q
    by_cases hq : q = some p
    · subst hq
      have hv : ideView s' (some p) = ideView s (some p) := by
        show (s'.pc p).ideLocked = (s.pc p).ideLocked
        rw [hpc, update_self, hd']
      rw [hv]
      exact h.ide (some p)
    · rw [ideView_step s s' hpc hh q hq]
      exact h.ide q

theorem locks_effect (h : LocksOk s) (he : Effect p s s') : LocksOk s' := by
  cases he with
  | @move d l m hm =>
    constructor
    · refine owner_step h.lock (p := p) (fun q hq => ?_) (fun hin => ?_) fun hout => ?_
      · show (update s.pc p d q).locked = _
        rw [update_of_ne hq]
      · have hin' : (update s.pc p d p).locked = true := hin
        rw [update_self] at hin'
        exact hm.lock.1 hin'
      · have hout' : (update s.pc p d p).locked = false := hout
        rw [update_self] at hout'
        exact hm.lock.2 hout'
    · refine owner_step h.ide (p := some p) (fun q hq => ?_) (fun hin => ?_) fun hout => ?_
      · exact ideView_step s { s.to p d with lock := l, idelock := m } rfl rfl q hq
      · have hin' : (update s.pc p d p).ideLocked = true := hin
        rw [update_self] at hin'
        exact hm.ide.1 hin'
      · have hout' : (update s.pc p d p).ideLocked = false := hout
        rw [update_self] at hout'
        exact hm.ide.2 hout'
  | take hpc _ _ | recycle hpc _ _ | relink hpc | drop hpc | append hpc _ =>
    exact locks_same h rfl rfl rfl rfl (by rw [hpc]; rfl) (by rw [hpc]; rfl)
  | write hpc _ _ _ _ hd _ _ _ _ =>
    rcases hd with rfl | ⟨rfl, -⟩
    · exact locks_same h rfl rfl rfl rfl (by rw [hpc]) (by rw [hpc])
    · exact locks_same h rfl rfl rfl rfl (by rw [hpc]; rfl) (by rw [hpc]; rfl)

/-! ## The ring and the blocks -/

/-- The ring and the blocks stay as they are, and `p` goes on to `d`. -/
theorem keys_same {d : Pc} (h : KeysOk s) (hpc : s'.pc = update s.pc p d)
    (hn : s'.next = s.next) (hp : s'.prev = s.prev) (hk : ∀ b, (s'.buf b).key = (s.buf b).key)
    (hscan : ∀ k x, d = .gScan k x → Scanned s k x) (hfree : ∀ k x, d = .gFree k x → ∀ b, (s.buf b).key ≠ k)
    (hwant : ∀ k, d.want = some k → inUse k.1 ∧ ∀ b, d.cur = some b → (s.buf b).key = k) : KeysOk s' := by
  have hself : s'.pc p = d := by rw [hpc, update_self]
  have hother : ∀ q, q ≠ p → s'.pc q = s.pc q := fun q hq => by rw [hpc, update_of_ne hq]
  have hscanned : ∀ {k x}, Scanned s k x → Scanned s' k x := by
    rintro k x ⟨pre, post, hr, hall, hx, hpre⟩
    refine ⟨pre, post, by rw [hn, hp]; exact hr, hall, hx, fun b hb => ?_⟩
    rw [hk b]
    exact hpre b hb
  refine ⟨?_, ?_, ?_, ?_, ?_, ?_⟩
  · rw [hn, hp]
    exact h.ring
  · intro b b' hu heq
    rw [hk b] at hu heq
    rw [hk b'] at heq
    exact h.uniq b b' hu heq
  · intro q k x hq
    by_cases hqp : q = p
    · subst hqp
      exact hscanned (hscan k x (hself.symm.trans hq))
    · exact hscanned (h.scan q k x ((hother q hqp).symm.trans hq))
  · intro q k x hq b
    rw [hk b]
    by_cases hqp : q = p
    · subst hqp
      exact hfree k x (hself.symm.trans hq) b
    · exact h.free q k x ((hother q hqp).symm.trans hq) b
  · intro q k hq
    by_cases hqp : q = p
    · subst hqp
      rw [hself] at hq
      exact (hwant k hq).1
    · rw [hother q hqp] at hq
      exact h.want q k hq
  · intro q k b hq hb
    rw [hk b]
    by_cases hqp : q = p
    · subst hqp
      rw [hself] at hq hb
      exact (hwant k hq).2 b hb
    · rw [hother q hqp] at hq hb
      exact h.got q k b hq hb

/-- Changing a field of a buffer other than its block. -/
theorem key_setBuf (hx : x.key = (s.buf b).key) (c : B) : ((s.setBuf b x).buf c).key = (s.buf c).key := by
  show (update s.buf b x c).key = _
  by_cases hc : c = b
  · subst hc; rw [update_self, hx]
  · rw [update_of_ne hc]

/-- Only the holder of `bcache.lock` is in the loops of `bget`. -/
theorem alone (h : LocksOk s) (hp : (s.pc p).locked = true) {q : P} (hq : q ≠ p) : (s.pc q).locked = false := by
  cases hl : (s.pc q).locked with
  | false => rfl
  | true => exact absurd (h.lock.unique hl hp) hq

theorem keys_recycle {k : Key} {x : Option B} (h : Inv s) (hpc : s.pc p = .gFree k x)
    (hb : (s.buf b).busy = false) : KeysOk (((s.setBuf b { s.buf b with
        dev := k.1, blockno := k.2, busy := true, valid := false, dirty := false }).hold
      p b true).to p (.gRel k b)) := by
  have hnone := h.keys.free p k x hpc
  have hk := h.keys.want p k (by rw [hpc]; rfl)
  have hother : ∀ q, q ≠ p → (s.pc q).locked = false :=
    fun q hq => alone h.locks (by rw [hpc]; rfl) hq
  generalize hs' : ((s.setBuf b { s.buf b with
      dev := k.1, blockno := k.2, busy := true, valid := false, dirty := false }).hold
    p b true).to p (.gRel k b) = s'
  have hself : s'.pc p = .gRel k b := by rw [← hs']; exact update_self ..
  have hpcq : ∀ q, q ≠ p → s'.pc q = s.pc q := fun q hq => by
    rw [← hs']; exact update_of_ne hq _ _
  have hkeyb : (s'.buf b).key = k := by
    rw [← hs']
    show (update s.buf b _ b).key = k
    rw [update_self]
    rfl
  have hkeyc : ∀ c, c ≠ b → (s'.buf c).key = (s.buf c).key := fun c hc => by
    rw [← hs']
    show (update s.buf b _ c).key = _
    rw [update_of_ne hc]
  have hlinks : s'.next = s.next ∧ s'.prev = s.prev := by rw [← hs']; exact ⟨rfl, rfl⟩
  refine ⟨?_, ?_, ?_, ?_, ?_, ?_⟩
  · rw [hlinks.1, hlinks.2]
    exact h.keys.ring
  · intro c c' hu heq
    by_cases hc : c = b
    · by_cases hc' : c' = b
      · rw [hc, hc']
      · rw [hc, hkeyb, hkeyc c' hc'] at heq
        exact absurd heq.symm (hnone c')
    · by_cases hc' : c' = b
      · rw [hkeyc c hc, hc', hkeyb] at heq
        exact absurd heq (hnone c)
      · rw [hkeyc c hc] at hu heq
        rw [hkeyc c' hc'] at heq
        exact h.keys.uniq c c' hu heq
  iterate 2
    intro q k' x' hq
    by_cases hqp : q = p
    · subst hqp
      cases hself.symm.trans hq
    · have hl := hother q hqp
      rw [← hpcq q hqp, hq] at hl
      cases hl
  · intro q k' hq
    by_cases hqp : q = p
    · subst hqp
      rw [hself] at hq
      rw [← some.inj hq]
      exact hk
    · rw [hpcq q hqp] at hq
      exact h.keys.want q k' hq
  · intro q k' c hq hc
    by_cases hqp : q = p
    · subst hqp
      rw [hself] at hq hc
      rw [← some.inj hq, ← some.inj hc]
      exact hkeyb
    · rw [hpcq q hqp] at hq hc
      rw [hkeyc c (h.holds.cur_ne hb hc)]
      exact h.keys.got q k' c hq hc

theorem keys_relink (h : Inv s) (hpc : s.pc p = .lLink b) : KeysOk { s.to p (.lBusy b) with
      next := (push b (unlink b (s.next, s.prev))).1
      prev := (push b (unlink b (s.next, s.prev))).2 } := by
  have hother : ∀ q, q ≠ p → (s.pc q).locked = false :=
    fun q hq => alone h.locks (by rw [hpc]; rfl) hq
  have hself : (s.to p (.lBusy b)).pc p = .lBusy b := update_self p _ s.pc
  have hpcq : ∀ q, q ≠ p → (s.to p (.lBusy b)).pc q = s.pc q :=
    fun q hq => update_of_ne hq _ s.pc
  refine ⟨?_, h.keys.uniq, ?_, ?_, ?_, ?_⟩
  · obtain ⟨order, hr, hall⟩ := h.keys.ring
    obtain ⟨pre, post, rfl⟩ := append_of_mem (hall b)
    refine ⟨b :: (pre ++ post), ring_moveFront hr, fun c => ?_⟩
    exact perm_middle.mem_iff.mp (hall c)
  · intro q k x hq
    by_cases hqp : q = p
    · subst hqp
      cases hself.symm.trans hq
    · have hl := hother q hqp
      rw [← hpcq q hqp] at hl
      cases (congrArg Pc.locked hq).symm.trans hl
  · intro q k x hq
    by_cases hqp : q = p
    · subst hqp
      cases hself.symm.trans hq
    · have hl := hother q hqp
      rw [← hpcq q hqp] at hl
      cases (congrArg Pc.locked hq).symm.trans hl
  · intro q k hq
    by_cases hqp : q = p
    · subst hqp
      cases (congrArg Pc.want hself).symm.trans hq
    · exact h.keys.want q k ((congrArg Pc.want (hpcq q hqp)).symm.trans hq)
  · intro q k c hq hc
    by_cases hqp : q = p
    · subst hqp
      cases (congrArg Pc.want hself).symm.trans hq
    · exact h.keys.got q k c ((congrArg Pc.want (hpcq q hqp)).symm.trans hq)
        ((congrArg Pc.cur (hpcq q hqp)).symm.trans hc)

theorem keys_effect (h : Inv s) (he : Effect p s s') : KeysOk s' := by
  cases he with
  | @move d l m hm => exact keys_same h.keys rfl rfl rfl (fun _ => rfl) hm.scan hm.free hm.want
  | @take k b hpc hkey hb =>
    have hk := h.keys.want p k (by rw [hpc]; rfl)
    refine keys_same h.keys rfl rfl rfl (key_setBuf rfl) nofun nofun fun k' hk' => ?_
    cases hk'
    exact ⟨hk, fun c hc => by cases hc; exact hkey⟩
  | recycle hpc hb _ => exact keys_recycle h hpc hb
  | relink hpc => exact keys_relink h hpc
  | drop hpc => exact keys_same h.keys rfl rfl rfl (key_setBuf rfl) nofun nofun nofun
  | write hpc _ hkey _ _ hd _ _ _ _ =>
    refine keys_same h.keys rfl rfl rfl (key_setBuf hkey) ?_ ?_ ?_
    · rcases hd with rfl | ⟨rfl, -⟩ <;> exact nofun
    · rcases hd with rfl | ⟨rfl, -⟩ <;> exact nofun
    · rcases hd with rfl | ⟨rfl, -⟩ <;> exact nofun
  | @append b r disk hpc hdisk =>
    exact keys_same h.keys rfl rfl rfl (fun _ => rfl) nofun nofun
      (h.keys.asked (by rw [hpc]; rfl) (by rw [hpc]; rfl))

/-! ## The buffers that processes have -/

theorem held_hold {b c : B} {q : P} {h : Bool} : (s.hold p b h).held q c = if q = p ∧ c = b then h else s.held q c := by
  show update s.held p (update (s.held p) b h) q c = _
  by_cases hq : q = p
  · subst hq
    rw [update_self]
    by_cases hc : c = b
    · subst hc
      rw [update_self, if_pos ⟨rfl, rfl⟩]
    · rw [update_of_ne hc, if_neg fun hb => hc hb.2]
  · rw [update_of_ne hq, if_neg fun hb => hq hb.1]

theorem setBuf_self : (s.setBuf b x).buf b = x := by
  exact update_self b x s.buf

theorem setBuf_ne {b c : B} (h : c ≠ b) : (s.setBuf b x).buf c = s.buf c := by
  exact update_of_ne h x s.buf

/-- No process gets or gives up a buffer. -/
theorem holds_same {d : Pc} (h : HoldsOk s) (hpc : s'.pc = update s.pc p d)
    (hh : s'.held = s.held) (hb : ∀ b, (s'.buf b).busy = (s.buf b).busy) (hk : ∀ b, (s'.buf b).key = (s.buf b).key)
    (hcur : ∀ b, d.cur = some b → s.held p b = true) : HoldsOk s' := by
  refine ⟨?_, ?_, ?_, ?_⟩
  · intro q b hq
    rw [hb b]
    rw [hh] at hq
    exact h.busy q b hq
  · rw [hh]
    exact h.once
  · intro q b hq
    rw [hh]
    rw [hpc, update_apply] at hq
    split_ifs at hq with hqp
    · subst hqp
      exact hcur b hq
    · exact h.cur q b hq
  · intro q b hq
    rw [hk b]
    rw [hh] at hq
    exact h.use q b hq

/-- A process gets a buffer that was not busy. -/
theorem holds_get {d : Pc} (h : HoldsOk s) (hfree : (s.buf b).busy = false)
    (hx : x.busy = true) (hu : inUse x.key.1) (hpc : (s.pc p).cur = none) (hd : d.cur = some b) :
    HoldsOk (((s.setBuf b x).hold p b true).to p d) := by
  have hheld : ∀ q c, (((s.setBuf b x).hold p b true).to p d).held q c =
      if q = p ∧ c = b then true else s.held q c := fun q c => held_hold (s := s.setBuf b x)
  have hnot := h.free hfree
  have hbuf : ∀ {q c}, ¬ (q = p ∧ c = b) → s.held q c = true → c ≠ b := by
    rintro q c - hq rfl
    rw [hnot q] at hq
    cases hq
  refine ⟨?_, ?_, ?_, ?_⟩
  · intro q c hq
    rw [hheld] at hq
    show ((s.setBuf b x).buf c).busy = true
    by_cases hqc : q = p ∧ c = b
    · rw [hqc.2, setBuf_self, hx]
    · rw [if_neg hqc] at hq
      rw [setBuf_ne (hbuf hqc hq)]
      exact h.busy q c hq
  · intro q r c hq hr
    rw [hheld] at hq hr
    by_cases hqc : q = p ∧ c = b
    · by_cases hrc : r = p ∧ c = b
      · rw [hqc.1, hrc.1]
      · rw [if_neg hrc] at hr
        exact absurd hqc.2 (hbuf hrc hr)
    · rw [if_neg hqc] at hq
      by_cases hrc : r = p ∧ c = b
      · exact absurd hrc.2 (hbuf hqc hq)
      · rw [if_neg hrc] at hr
        exact h.once q r c hq hr
  · intro q c hq
    rw [hheld]
    by_cases hqp : q = p
    · subst hqp
      have hq' : (update s.pc q d q).cur = some c := hq
      rw [update_self, hd] at hq'
      rw [if_pos ⟨rfl, (some.inj hq').symm⟩]
    · have hq' : (update s.pc p d q).cur = some c := hq
      rw [update_of_ne hqp] at hq'
      rw [if_neg fun hb => hqp hb.1]
      exact h.cur q c hq'
  · intro q c hq
    rw [hheld] at hq
    show inUse ((s.setBuf b x).buf c).key.1
    by_cases hqc : q = p ∧ c = b
    · rw [hqc.2, setBuf_self]
      exact hu
    · rw [if_neg hqc] at hq
      rw [setBuf_ne (hbuf hqc hq)]
      exact h.use q c hq

theorem holds_drop (h : HoldsOk s) (hpc : s.pc p = .lBusy b) :
    HoldsOk (((s.setBuf b { s.buf b with busy := false }).hold p b false).to p .lRel) := by
  have hp : s.held p b = true := h.cur p b (by rw [hpc]; rfl)
  have hheld : ∀ q c, (((s.setBuf b { s.buf b with busy := false }).hold p b false).to
      p .lRel).held q c = if q = p ∧ c = b then false else s.held q c :=
    fun q c => held_hold (s := s.setBuf b _)
  -- whoever still holds a buffer held it before, and it is another one
  have hstill : ∀ {q c}, (if q = p ∧ c = b then false else s.held q c) = true → s.held q c = true ∧ c ≠ b := by
    intro q c hq
    split_ifs at hq with hqc
    refine ⟨hq, ?_⟩
    rintro rfl
    exact hqc ⟨h.once q p c hq hp, rfl⟩
  refine ⟨?_, ?_, ?_, ?_⟩
  · intro q c hq
    rw [hheld] at hq
    obtain ⟨hq', hc⟩ := hstill hq
    show ((s.setBuf b _).buf c).busy = true
    rw [setBuf_ne hc]
    exact h.busy q c hq'
  · intro q r c hq hr
    rw [hheld] at hq hr
    exact h.once q r c (hstill hq).1 (hstill hr).1
  · intro q c hq
    rw [hheld]
    by_cases hqp : q = p
    · subst hqp
      have hq' : (update s.pc q .lRel q).cur = some c := hq
      rw [update_self] at hq'
      cases hq'
    · have hq' : (update s.pc p .lRel q).cur = some c := hq
      rw [update_of_ne hqp] at hq'
      rw [if_neg fun hb => hqp hb.1]
      exact h.cur q c hq'
  · intro q c hq
    rw [hheld] at hq
    obtain ⟨hq', hc⟩ := hstill hq
    show inUse ((s.setBuf b _).buf c).key.1
    rw [setBuf_ne hc]
    exact h.use q c hq'

/-- Changing a field of a buffer other than `busy`. -/
theorem busy_setBuf (hx : x.busy = (s.buf b).busy) (c : B) : ((s.setBuf b x).buf c).busy = (s.buf c).busy := by
  by_cases hc : c = b
  · rw [hc, setBuf_self, hx]
  · rw [setBuf_ne hc]

theorem holds_effect (h : Inv s) (he : Effect p s s') : HoldsOk s' := by
  cases he with
  | @move d l m hm =>
    refine holds_same h.holds rfl rfl (fun _ => rfl) (fun _ => rfl) fun b hb => ?_
    rcases hm.cur b hb with hc | ⟨hh, -⟩
    · exact h.holds.cur p b hc
    · exact hh
  | @take k b hpc hkey hb =>
    have hk := h.keys.want p k (by rw [hpc]; rfl)
    exact holds_get h.holds hb rfl (hkey ▸ hk) (by rw [hpc]; rfl) rfl
  | @recycle k b x hpc hb _ =>
    have hk := h.keys.want p k (by rw [hpc]; rfl)
    exact holds_get h.holds hb rfl hk (by rw [hpc]; rfl) rfl
  | @relink b hpc | @append b r disk hpc hdisk =>
    refine holds_same h.holds rfl rfl (fun _ => rfl) (fun _ => rfl) fun c hc => ?_
    cases hc
    exact h.holds.cur p b (by rw [hpc]; rfl)
  | drop hpc => exact holds_drop h.holds hpc
  | @write b x d last pending hpc hh hkey _ hbusy hd _ _ _ _ =>
    refine holds_same h.holds rfl rfl (busy_setBuf hbusy) (key_setBuf hkey) fun c hc => ?_
    rcases hd with rfl | ⟨rfl, -⟩
    · cases hc
    · cases hc
      exact hh

end Keep

end Xv6Bcache
