import Xv6.BcacheCodeProofs

/-!
# `ide.c` — the queue of disk requests

Processes own buffers, as `B_BUSY` has it, and call `iderw` on them. `iderw` puts the buffer at the
end of `idequeue`, starts the disk if the queue was empty, and waits until the buffer is valid and
not dirty. The disk works on one command at a time; when it is done it reports a status and raises one
interrupt, and `ideintr` takes the first buffer off the queue, and starts the disk on the next one.

A buffer that a process owns can be given to another block, new data can be stored into it, and it can
be marked dirty, when the process is in no call. `bget` gives a block to one buffer only, but it
compares device numbers, and several of them select one drive. A `panic` stops the process that calls it.

Recorded beside the state are the owner of each buffer, which buffers have been given a block, the
requests that have arrived and those that have been completed, both in order, the buffers whose last
request the disk has failed, and those stored into since their last request.
-/

namespace Xv6Ide

open Interleave Xv6Disk Function List Option
open Xv6Bcache (Key Buf drive)

/-- Where a process is in `iderw(b)`. -/
inductive Pc (B : Type) where
  | out
  | check (b : B)
  | acq (b : B)
  | append (b : B)
  | wait (b : B)
  | reacq (b : B)
  | rel (b : B)
deriving DecidableEq

/-- Where `ideintr` is. -/
inductive Handler where
  | idle
  | acq
  | serve
  | rel
deriving DecidableEq

/-- The controller: at work for a buffer, with the data of a write; done, with whether it reports an
    error, before and after the interrupt has been taken. -/
inductive Device (B α : Type) where
  | idle
  | working (b : B) (w : Option α)
  | raised (b : B) (w : Option α) (err : Bool)
  | taken (b : B) (w : Option α) (err : Bool)

/-- What a process does next, where it has a choice. -/
inductive Act (B α : Type) where
  | go
  | get (b : B)
  | bind (b : B) (k : Key)
  | store (b : B) (v : α)
  | dirty (b : B)
  | iderw (b : B)
  | put (b : B)

/-- The queue, the buffers, the disk and the processes, with what is recorded beside them. -/
structure St (P B α : Type) where
  havedisk1 : Bool
  idelock : Option (Option P)
  buf : B → Buf α
  idequeue : List B
  device : Device B α
  handler : Handler
  disk : Key → α
  pc : P → Pc B
  owner : B → Option P
  bound : B → Bool
  arrived : List B
  completed : List B
  failed : B → Bool
  touched : B → Bool

variable {P B α : Type}

/-- The state after `binit` and `ideinit`. -/
def init (P B : Type) (havedisk1 : Bool) (disk : Key → α) (data : B → α) : St P B α where
  havedisk1 := havedisk1
  idelock := none
  buf := fun b => ⟨false, false, false, -1, 0, data b⟩
  idequeue := []
  device := .idle
  handler := .idle
  disk := disk
  pc := fun _ => .out
  owner := fun _ => none
  bound := fun _ => false
  arrived := []
  completed := []
  failed := fun _ => false
  touched := fun _ => false

/-- `idestart`: the command, with the data of a dirty buffer; `none` is its panic. -/
def idestart (s : St P B α) (b : B) : Option (Device B α) :=
  if FSSIZE ≤ (s.buf b).blockno.toNat then none
  else some (.working b (if (s.buf b).dirty = true then some (s.buf b).data else none))

/-- The disk is done with its command. A write that succeeds is on the disk now. -/
def finish (err : Bool) (s : St P B α) : Option (St P B α) :=
  match s.device with
  | .working b w => some { s with
      device := .raised b w err
      disk := match w, err with
        | some v, false => update s.disk (drive (s.buf b).key) v
        | _, _ => s.disk }
  | _ => none

variable [DecidableEq B]

/-- What `ideintr` makes of the first buffer of the queue. -/
def served (s : St P B α) (b : B) (err : Bool) : Buf α :=
  { s.buf b with
    data := if (s.buf b).dirty = false ∧ err = false then s.disk (drive (s.buf b).key) else (s.buf b).data
    valid := true
    dirty := false }

/-- The state after the first buffer of the queue has been served. -/
def complete (s : St P B α) (b : B) (q : List B) (err : Bool) (d : Device B α) : St P B α :=
  { s with
    buf := update s.buf b (served s b err)
    idequeue := q
    device := d
    handler := .rel
    completed := s.completed ++ [b]
    failed := update s.failed b err
    touched := update s.touched b false }

/-- A step of `ideintr`. -/
def intr (s : St P B α) : Option (St P B α) :=
  match s.handler, s.device with
  | .idle, .raised b w err => some { s with device := .taken b w err, handler := .acq }
  | .acq, _ => if s.idelock = none then some { s with idelock := some none, handler := .serve } else none
  | .serve, .taken _ _ err =>
    match s.idequeue with
    | [] => some { s with handler := .rel }
    | [b] => some (complete s b [] err .idle)
    | b :: c :: q =>
      -- the next buffer is another one, so `idestart` sees it as it was
      (idestart s c).map fun d => complete s b (c :: q) err d
  | .rel, _ => some { s with idelock := none, handler := .idle }
  | _, _ => none

variable [DecidableEq P] [Fintype B]

def St.to (s : St P B α) (p : P) (c : Pc B) : St P B α := { s with pc := update s.pc p c }

def St.setBuf (s : St P B α) (b : B) (x : Buf α) : St P B α :=
  { s with buf := update s.buf b x }

/-- One step of process `p`. -/
def step (p : P) (a : Act B α) (s : St P B α) : Option (St P B α) :=
  match s.pc p, a with
  | .out, .get b =>
    if (s.buf b).busy = false then
      some { s.setBuf b { s.buf b with busy := true } with owner := update s.owner b (some p) }
    else none
  | .out, .bind b k =>
    -- `bget` has found no buffer of this block, and a clean one to recycle
    if s.owner b = some p ∧ (s.buf b).dirty = false ∧ ∀ c, c ≠ b → (s.buf c).key ≠ k then
      some { s.setBuf b { s.buf b with dev := k.1, blockno := k.2, valid := false } with
        bound := update s.bound b true }
    else none
  | .out, .store b v =>
    if s.owner b = some p ∧ s.bound b = true then
      some { s.setBuf b { s.buf b with data := v } with touched := update s.touched b true }
    else none
  | .out, .dirty b =>
    if s.owner b = some p ∧ s.bound b = true then some (s.setBuf b { s.buf b with dirty := true }) else none
  | .out, .iderw b =>
    if s.owner b = some p ∧ s.bound b = true then some (s.to p (.check b)) else none
  | .out, .put b =>
    if s.owner b = some p then
      some { s.setBuf b { s.buf b with busy := false } with owner := update s.owner b none }
    else none
  | .check b, .go =>
    if (s.buf b).busy = true ∧ ¬ ((s.buf b).valid = true ∧ (s.buf b).dirty = false) ∧
        ¬ ((s.buf b).dev ≠ 0 ∧ s.havedisk1 = false) then
      some (s.to p (.acq b))
    else none
  | .acq b, .go =>
    if s.idelock = none then some { s.to p (.append b) with idelock := some (some p) } else none
  | .append b, .go =>
    match s.idequeue with
    | [] => (idestart s b).map fun d =>
      { s.to p (.wait b) with idequeue := [b], device := d, arrived := s.arrived ++ [b] }
    | q => some { s.to p (.wait b) with idequeue := q ++ [b], arrived := s.arrived ++ [b] }
  | .wait b, .go =>
    if (s.buf b).valid = true ∧ (s.buf b).dirty = false then some (s.to p (.rel b))
    else some { s.to p (.reacq b) with idelock := none }
  | .reacq b, .go =>
    if s.idelock = none then some { s.to p (.wait b) with idelock := some (some p) } else none
  | .rel _, .go => some { s.to p .out with idelock := none }
  | _, _ => none

/-- A process, which does only what `fit` allows, the interrupt handler, or the disk, which reports only
    what `ok` allows. -/
def Step (ok : Bool → Bool) (fit : Act B α → St P B α → Prop) (s s' : St P B α) : Prop :=
  intr s = some s' ∨ (∃ err, ok err = true ∧ finish err s = some s') ∨ ∃ p a, fit a s ∧ step p a s = some s'

/-- The states that some interleaving leads to. -/
def Reach (ok : Bool → Bool) (fit : Act B α → St P B α → Prop) (s : St P B α) : Prop :=
  ∃ have1 disk data, Relation.ReflTransGen (Step ok fit) (init P B have1 disk data) s

/-- No block is given to a buffer while another one has it under a device number of the same drive. -/
def OneName (a : Act B α) (s : St P B α) : Prop :=
  match a with
  | .bind b k => ∀ c, c ≠ b → s.bound c = true → drive (s.buf c).key = drive k → (s.buf c).key = k
  | _ => True

/-! ## Regions of the code -/

@[simp] def Pc.locked : Pc B → Bool
  | .append _ | .wait _ | .rel _ => true
  | _ => false

/-- The buffer that `iderw` works on. -/
@[simp] def Pc.cur : Pc B → Option B
  | .out => none
  | .check b | .acq b | .append b | .wait b | .reacq b | .rel b => some b

/-- The buffer that has not been put into the queue yet. -/
@[simp] def Pc.asks : Pc B → Option B
  | .acq b | .append b => some b
  | _ => none

/-- The buffer whose request has been put into the queue. -/
@[simp] def Pc.waits : Pc B → Option B
  | .wait b | .reacq b => some b
  | _ => none

@[simp] def Handler.locked : Handler → Bool
  | .serve | .rel => true
  | _ => false

/-- The buffer of the command, and the data that it writes. -/
@[simp] def Device.cmd : Device B α → Option (B × Option α)
  | .idle => none
  | .working b w | .raised b w _ | .taken b w _ => some (b, w)

@[simp] def Device.taken? : Device B α → Bool
  | .taken _ _ _ => true
  | _ => false

/-- The status of a command that is done. -/
@[simp] def Device.status : Device B α → Option Bool
  | .raised _ _ err | .taken _ _ err => some err
  | _ => none

@[simp] def Handler.has : Handler → Bool
  | .acq | .serve => true
  | _ => false

/-- The buffer is to be written or read. -/
def Buf.needs (x : Buf α) : Bool := !(x.valid && !x.dirty)

/-- The invariant of the queue, whatever the disk reports. -/
structure Inv (s : St P B α) : Prop where
  lock : ∀ p, (s.pc p).locked = true ↔ s.idelock = some (some p)
  hlock : s.handler.locked = true ↔ s.idelock = some none
  busy : ∀ b, (s.buf b).busy = (s.owner b).isSome
  own : ∀ p b, (s.pc p).cur = some b → s.owner b = some p
  curBound : ∀ p b, (s.pc p).cur = some b → s.bound b = true
  nodup : s.idequeue.Nodup
  queued : ∀ b, b ∈ s.idequeue → s.owner b ≠ none
  waiter : ∀ b p, b ∈ s.idequeue → s.owner b = some p → (s.pc p).waits = some b
  needs : ∀ b, b ∈ s.idequeue → Buf.needs (s.buf b) = true
  asks : ∀ p b, (s.pc p).asks = some b → b ∉ s.idequeue ∧ Buf.needs (s.buf b) = true
  waits : ∀ p b, (s.pc p).waits = some b → b ∈ s.idequeue ∨ Buf.needs (s.buf b) = false
  done : ∀ p b, s.pc p = .rel b → Buf.needs (s.buf b) = false
  head : s.device.cmd.map Prod.fst = s.idequeue.head?
  cmd : ∀ b w, s.device.cmd = some (b, w) → w = if (s.buf b).dirty = true then some (s.buf b).data else none
  taken : s.handler.has = s.device.taken?
  order : s.arrived = s.completed ++ s.idequeue
  validBound : ∀ b, (s.buf b).valid = true ∨ (s.buf b).dirty = true → s.bound b = true

section Steps

variable {s s' : St P B α} {p : P} {a : Act B α} {b : B}

section

omit [DecidableEq B] [Fintype B]

theorem asks_cur {c : Pc B} (h : c.asks = some b) : c.cur = some b := by
  cases c <;> first | exact h | exact nomatch h

theorem waits_cur {c : Pc B} (h : c.waits = some b) : c.cur = some b := by
  cases c <;> first | exact h | exact nomatch h

end

section

omit [DecidableEq B] [Fintype B] [DecidableEq P]

/-- The buffer of the command is the first one of the queue. -/
theorem Inv.cmd_mem (h : Inv s) {w : Option α} (hc : s.device.cmd = some (b, w)) : b ∈ s.idequeue := by
  have hh := h.head
  rw [hc] at hh
  exact mem_of_head? hh.symm

/-- A buffer that its owner does not use in a call. -/
theorem Inv.unused (h : Inv s) (hpc : s.pc p = .out) (hb : s.owner b = none ∨ s.owner b = some p) :
    (∀ q, (s.pc q).cur ≠ some b) ∧ b ∉ s.idequeue := by
  have hno : ∀ q, (s.pc q).cur ≠ some b := by
    intro q hq
    have ho := h.own q b hq
    rcases hb with hb | hb
    · rw [hb] at ho; cases ho
    · obtain rfl : p = q := some.inj (hb.symm.trans ho)
      rw [hpc] at hq
      cases hq
  refine ⟨hno, fun hmem => ?_⟩
  rcases hb with hb | hb
  · exact h.queued b hmem hb
  · exact hno p (waits_cur (h.waiter b p hmem hb))

end

omit [Fintype B] [DecidableEq P] in
/-- Such a buffer is changed. -/
theorem Inv.buffer (h : Inv s) {x : Buf α} {o : Option P} {k : Bool} (hno : ∀ q, (s.pc q).cur ≠ some b)
    (hout : b ∉ s.idequeue) (hx : x.busy = o.isSome) (hvalid : x.valid = true ∨ x.dirty = true → k = true)
    (u : B → Bool) : Inv { s with
      buf := update s.buf b x
      owner := update s.owner b o
      bound := update s.bound b k
      touched := u } := by
  have hne : ∀ q c, (s.pc q).cur = some c → c ≠ b := fun q c hq hc => hno q (hc ▸ hq)
  have hmem : ∀ c, c ∈ s.idequeue → c ≠ b := fun c hc hcb => hout (hcb ▸ hc)
  constructor
  · exact h.lock
  · exact h.hlock
  · intro c
    by_cases hc : c = b
    · subst hc; simp only [update_self]; exact hx
    · simp only [update_of_ne hc]; exact h.busy c
  · intro q c hq
    simp only [update_of_ne (hne q c hq)]
    exact h.own q c hq
  · intro q c hq
    simp only [update_of_ne (hne q c hq)]
    exact h.curBound q c hq
  · exact h.nodup
  · intro c hc
    simp only [update_of_ne (hmem c hc)]
    exact h.queued c hc
  · intro c q hc ho
    simp only [update_of_ne (hmem c hc)] at ho
    exact h.waiter c q hc ho
  · intro c hc
    simp only [update_of_ne (hmem c hc)]
    exact h.needs c hc
  · intro q c hq
    simp only [update_of_ne (hne q c (asks_cur hq))]
    exact h.asks q c hq
  · intro q c hq
    simp only [update_of_ne (hne q c (waits_cur hq))]
    exact h.waits q c hq
  · intro q c hq
    simp only [update_of_ne (hne q c (congrArg Pc.cur hq))]
    exact h.done q c hq
  · exact h.head
  · intro c w hc
    simp only [update_of_ne (hmem c (h.cmd_mem hc))]
    exact h.cmd c w hc
  · exact h.taken
  · exact h.order
  · intro c hc
    by_cases hcb : c = b
    · subst hcb
      simp only [update_self] at hc ⊢
      exact hvalid hc
    · simp only [update_of_ne hcb] at hc ⊢
      exact h.validBound c hc

/-- The lock, as the processes and the handler have it. -/
def Locks (s : St P B α) (pc : P → Pc B) (o : Option (Option P)) : Prop :=
  (∀ q, (pc q).locked = true ↔ o = some (some q)) ∧ (s.handler.locked = true ↔ o = some none)

section

omit [DecidableEq B] [Fintype B]

theorem locks_same (h : Inv s) {c : Pc B} (hc : c.locked = (s.pc p).locked) : Locks s (update s.pc p c) s.idelock := by
  refine ⟨fun q => ?_, h.hlock⟩
  rw [update_apply]
  split_ifs with hq
  · subst hq
    rw [hc]
    exact h.lock q
  · exact h.lock q

theorem locks_acquire (h : Inv s) {c : Pc B} (hfree : s.idelock = none) (hc : c.locked = true) :
    Locks s (update s.pc p c) (some (some p)) := by
  have hlock := h.lock
  have hhlock := h.hlock
  rw [hfree] at hhlock
  constructor
  · intro q
    by_cases hq : q = p
    · subst hq; rw [update_self, hc]; exact ⟨fun _ => rfl, fun _ => rfl⟩
    · rw [update_of_ne hq, hlock q, hfree]
      constructor
      · exact nofun
      · exact fun heq => absurd (some.inj (some.inj heq)).symm hq
  · rw [hhlock]
    constructor
    · exact nofun
    · exact fun hf => nomatch (some.inj hf)

theorem locks_release (h : Inv s) {c : Pc B} (hp : (s.pc p).locked = true) (hc : c.locked = false) :
    Locks s (update s.pc p c) none := by
  have hheld := (h.lock p).mp hp
  constructor
  · intro q
    rw [update_apply]
    split_ifs with hq
    · rw [hc]
      constructor
      · exact nofun
      · exact nofun
    · rw [h.lock q, hheld]
      constructor
      · exact fun heq => absurd (some.inj (some.inj heq)).symm hq
      · exact nofun
  · rw [h.hlock, hheld]
    constructor
    · exact fun hf => nomatch (some.inj hf)
    · exact nofun

/-- A process goes on in `iderw`. -/
theorem Inv.move (h : Inv s) {c : Pc B} {o : Option (Option P)} (hl : Locks s (update s.pc p c) o)
    (hcur : ∀ b, c.cur = some b → s.owner b = some p ∧ s.bound b = true)
    (hwaiter : ∀ b, b ∈ s.idequeue → s.owner b = some p → c.waits = some b)
    (hasks : ∀ b, c.asks = some b → b ∉ s.idequeue ∧ Buf.needs (s.buf b) = true)
    (hwaits : ∀ b, c.waits = some b → b ∈ s.idequeue ∨ Buf.needs (s.buf b) = false)
    (hdone : ∀ b, c = .rel b → Buf.needs (s.buf b) = false) : Inv { s.to p c with idelock := o } := by
  have hcase : ∀ {R : P → Pc B → Prop}, R p c → (∀ q, q ≠ p → R q (s.pc q)) → ∀ q, R q (update s.pc p c q) := by
    intro R h1 h2 q
    rw [update_apply]
    split_ifs with hq
    · subst hq
      exact h1
    · exact h2 q hq
  refine { h with
    lock := hl.1, hlock := hl.2, own := ?_, curBound := ?_, waiter := ?_, asks := ?_, waits := ?_, done := ?_ }
  · exact hcase (R := fun q d => ∀ b, d.cur = some b → s.owner b = some q)
      (fun b hb => (hcur b hb).1) fun q _ => h.own q
  · exact hcase (R := fun q d => ∀ b, d.cur = some b → s.bound b = true)
      (fun b hb => (hcur b hb).2) fun q _ => h.curBound q
  · intro b q hb ho
    exact hcase (R := fun q d => s.owner b = some q → d.waits = some b) (hwaiter b hb) (fun q _ => h.waiter b q hb) q ho
  · exact hcase (R := fun _ d => ∀ b, d.asks = some b → b ∉ s.idequeue ∧ Buf.needs (s.buf b) = true)
      hasks fun q _ => h.asks q
  · exact hcase (R := fun _ d => ∀ b, d.waits = some b → b ∈ s.idequeue ∨ Buf.needs (s.buf b) = false)
      hwaits fun q _ => h.waits q
  · exact hcase (R := fun _ d => ∀ b, d = .rel b → Buf.needs (s.buf b) = false) hdone fun q _ => h.done q

/-- `iderw` appends its buffer to the queue; the device is at work for the first one. -/
theorem Inv.append (h : Inv s) (hpc : s.pc p = .append b) {d : Device B α}
    (hhead : d.cmd.map Prod.fst = (s.idequeue ++ [b]).head?)
    (hcmd : ∀ c w, d.cmd = some (c, w) → w = if (s.buf c).dirty = true then some (s.buf c).data else none)
    (htaken : s.handler.has = d.taken?) : Inv { s.to p (.wait b) with
      idequeue := s.idequeue ++ [b], device := d, arrived := s.arrived ++ [b] } := by
  obtain ⟨hnot, hneeds⟩ := h.asks p b (by rw [hpc]; rfl)
  have hown := h.own p b (by rw [hpc]; rfl)
  have hbound := h.curBound p b (by rw [hpc]; rfl)
  have hl : Locks s (update s.pc p (.wait b)) s.idelock := locks_same h (by rw [hpc]; rfl)
  have hmem : ∀ c, c ∈ s.idequeue ++ [b] ↔ c ∈ s.idequeue ∨ c = b := by
    intro c
    rw [mem_append, mem_singleton]
  have hself : (update s.pc p (Pc.wait b)) p = .wait b := update_self _ _ _
  have hne : ∀ q, q ≠ p → (update s.pc p (Pc.wait b)) q = s.pc q :=
    fun q hq => update_of_ne hq _ _
  -- no other process uses the buffer
  have hother : ∀ q c, q ≠ p → (s.pc q).cur = some c → c ≠ b := by
    rintro q c hq hcq rfl
    exact hq (some.inj ((h.own q c hcq).symm.trans hown))
  constructor
  · exact hl.1
  · exact hl.2
  · exact h.busy
  · intro q c hc
    by_cases hq : q = p
    · subst hq
      obtain rfl : b = c := some.inj ((congrArg Pc.cur hself).symm.trans hc)
      exact hown
    · exact h.own q c ((congrArg Pc.cur (hne q hq)).symm.trans hc)
  · intro q c hc
    by_cases hq : q = p
    · subst hq
      obtain rfl : b = c := some.inj ((congrArg Pc.cur hself).symm.trans hc)
      exact hbound
    · exact h.curBound q c ((congrArg Pc.cur (hne q hq)).symm.trans hc)
  · refine nodup_append.mpr ⟨h.nodup, nodup_singleton b, ?_⟩
    rintro c hc e he rfl
    rw [mem_singleton] at he
    exact hnot (he ▸ hc)
  · intro c hc
    rcases (hmem c).mp hc with hc | rfl
    · exact h.queued c hc
    · show s.owner c ≠ none
      rw [hown]
      exact nofun
  · intro c q hc ho
    rcases (hmem c).mp hc with hc | rfl
    · have hw := h.waiter c q hc ho
      by_cases hq : q = p
      · subst hq
        rw [hpc] at hw
        cases hw
      · exact (congrArg Pc.waits (hne q hq)).trans hw
    · obtain rfl : p = q := some.inj (hown.symm.trans ho)
      exact congrArg Pc.waits hself
  · intro c hc
    rcases (hmem c).mp hc with hc | rfl
    · exact h.needs c hc
    · exact hneeds
  · intro q c hc
    by_cases hq : q = p
    · subst hq
      cases (congrArg Pc.asks hself).symm.trans hc
    · have hc' : (s.pc q).asks = some c := (congrArg Pc.asks (hne q hq)).symm.trans hc
      refine ⟨fun hin => ?_, (h.asks q c hc').2⟩
      rcases (hmem c).mp hin with hin | rfl
      · exact (h.asks q c hc').1 hin
      · exact hother q c hq (asks_cur hc') rfl
  · intro q c hc
    by_cases hq : q = p
    · subst hq
      obtain rfl : b = c := some.inj ((congrArg Pc.waits hself).symm.trans hc)
      exact .inl ((hmem b).mpr (.inr rfl))
    · rcases h.waits q c ((congrArg Pc.waits (hne q hq)).symm.trans hc) with hin | hv
      · exact .inl ((hmem c).mpr (.inl hin))
      · exact .inr hv
  · intro q c hc
    by_cases hq : q = p
    · subst hq
      cases hself.symm.trans hc
    · exact h.done q c ((hne q hq).symm.trans hc)
  · exact hhead
  · exact hcmd
  · exact htaken
  · show s.arrived ++ [b] = s.completed ++ (s.idequeue ++ [b])
    rw [h.order, append_assoc]
  · exact h.validBound

end

omit [DecidableEq B] [Fintype B] [DecidableEq P] in
theorem idestart_some {d : Device B α} (hd : idestart s b = some d) :
    d = .working b (if (s.buf b).dirty = true then some (s.buf b).data else none) := by
  rw [idestart] at hd
  split at hd
  · cases hd
  · exact (some.inj hd).symm

section

variable (h : Inv s)
include h

section

omit [DecidableEq B] [Fintype B] [DecidableEq P]

/-- The device is idle exactly while the queue is empty. -/
theorem Inv.idle (hq : s.idequeue = []) : s.device = .idle := by
  have hh := h.head
  rw [hq] at hh
  cases hd : s.device with
  | idle => rfl
  | working _ _ | raised _ _ _ | taken _ _ _ => rw [hd] at hh; cases hh

/-- A buffer that is not busy has no owner. -/
theorem Inv.free {b : B} (hb : (s.buf b).busy = false) : s.owner b = none := by
  have := h.busy b
  rw [hb] at this
  exact isNone_iff_eq_none.mp (by rw [← not_isSome, ← this]; rfl)

theorem Inv.mine {b : B} (hcur : (s.pc p).cur = some b) (c : B) (hc : some b = some c) :
    s.owner c = some p ∧ s.bound c = true :=
  ⟨h.own p c (hcur.trans hc), h.curBound p c (hcur.trans hc)⟩

theorem Inv.not_queued (hw : (s.pc p).waits = none) (c : B) (hc : c ∈ s.idequeue) : s.owner c ≠ some p :=
  fun ho => nomatch hw.symm.trans (h.waiter c p hc ho)

end

/-- **A step of a process** keeps the invariant. -/
theorem step_inv (hs : step p a s = some s') : Inv s' := by
  unfold step at hs
  split at hs
  case h_1 b hpc =>
    split_ifs at hs with hb
    cases hs
    obtain ⟨hno, hout⟩ := h.unused hpc (.inl (h.free hb))
    have hfin := h.buffer (x := { s.buf b with busy := true }) (o := some p) (k := s.bound b)
      hno hout rfl (h.validBound b) s.touched
    rw [update_eq_self b s.bound] at hfin
    exact hfin
  case h_2 b k hpc =>
    split_ifs at hs with hb
    cases hs
    obtain ⟨hno, hout⟩ := h.unused hpc (.inr hb.1)
    have hfin := h.buffer (x := { s.buf b with dev := k.1, blockno := k.2, valid := false })
      (o := s.owner b) (k := true) hno hout (h.busy b) (fun _ => rfl) s.touched
    rw [update_eq_self b s.owner] at hfin
    exact hfin
  case h_3 b v hpc =>
    split_ifs at hs with hb
    cases hs
    obtain ⟨hno, hout⟩ := h.unused hpc (.inr hb.1)
    have hfin := h.buffer (x := { s.buf b with data := v }) (o := s.owner b) (k := s.bound b)
      hno hout (h.busy b) (fun _ => hb.2) (update s.touched b true)
    rw [update_eq_self b s.owner, update_eq_self b s.bound] at hfin
    exact hfin
  case h_4 b hpc =>
    split_ifs at hs with hb
    cases hs
    obtain ⟨hno, hout⟩ := h.unused hpc (.inr hb.1)
    have hfin := h.buffer (x := { s.buf b with dirty := true }) (o := s.owner b) (k := s.bound b)
      hno hout (h.busy b) (fun _ => hb.2) s.touched
    rw [update_eq_self b s.owner, update_eq_self b s.bound] at hfin
    exact hfin
  case h_5 b hpc =>
    split_ifs at hs with hb
    cases hs
    refine h.move (locks_same h (by rw [hpc]; rfl)) ?_ ?_ nofun
      nofun nofun
    · intro c hc
      obtain rfl : b = c := some.inj hc
      exact hb
    · intro c hc ho
      exact absurd hc (h.unused hpc (.inr ho)).2
  case h_6 b hpc =>
    split_ifs at hs with hb
    cases hs
    obtain ⟨hno, hout⟩ := h.unused hpc (.inr hb)
    have hfin := h.buffer (x := { s.buf b with busy := false }) (o := none) (k := s.bound b)
      hno hout rfl (h.validBound b) s.touched
    rw [update_eq_self b s.bound] at hfin
    exact hfin
  case h_7 b hpc =>
    have hcur : (s.pc p).cur = some b := by rw [hpc]; rfl
    split_ifs at hs with hb
    cases hs
    have hnot := h.not_queued (p := p) (by rw [hpc]; rfl)
    refine h.move (locks_same h (by rw [hpc]; rfl)) (h.mine hcur) (fun c hc ho => absurd ho (hnot c hc)) ?_
      nofun nofun
    intro c hc
    obtain rfl : b = c := some.inj hc
    refine ⟨fun hin => hnot b hin (h.own p b hcur), ?_⟩
    simp only [Buf.needs]
    grind
  case h_8 b hpc =>
    have hcur : (s.pc p).cur = some b := by rw [hpc]; rfl
    split_ifs at hs with hfree
    cases hs
    refine h.move (locks_acquire h hfree rfl) (h.mine hcur)
      (fun c hc ho => absurd ho (h.not_queued (by rw [hpc]; rfl) c hc)) ?_ nofun nofun
    intro c hc
    obtain rfl : b = c := some.inj hc
    exact h.asks p b (by rw [hpc]; rfl)
  case h_9 b hpc =>
    split at hs
    case h_1 hq =>
      obtain ⟨d, hd, rfl⟩ := map_eq_some_iff.mp hs
      have hidle := h.idle hq
      obtain rfl := idestart_some hd
      have hfin := h.append hpc (d := .working b (if (s.buf b).dirty = true then
        some (s.buf b).data else none)) (by rw [hq]; rfl) ?_ ?_
      · rw [hq, nil_append] at hfin
        exact hfin
      · intro c w hc
        obtain ⟨rfl, rfl⟩ := Prod.mk.inj (some.inj hc)
        rfl
      · have := h.taken
        rw [hidle] at this
        exact this
    case h_2 q hq =>
      cases hs
      refine h.append hpc ?_ h.cmd h.taken
      show s.device.cmd.map Prod.fst = (s.idequeue ++ [b]).head?
      rw [h.head]
      cases hl : s.idequeue with
      | nil => exact absurd hl hq
      | cons _ _ => rfl
  case h_10 b hpc =>
    have hcur : (s.pc p).cur = some b := by rw [hpc]; rfl
    have hcur' := h.mine hcur
    split_ifs at hs with hv
    · cases hs
      have hneeds : Buf.needs (s.buf b) = false := by rw [Buf.needs, hv.1, hv.2]; rfl
      refine h.move (locks_same h (by rw [hpc]; rfl)) hcur' ?_ nofun
        nofun ?_
      · intro c hc ho
        have hw := h.waiter c p hc ho
        rw [hpc] at hw
        obtain rfl : b = c := some.inj hw
        rw [h.needs b hc] at hneeds
        cases hneeds
      · rintro c hc
        obtain rfl : b = c := by injection hc
        exact hneeds
    · cases hs
      refine h.move (locks_release h (by rw [hpc]; rfl) rfl) hcur' ?_ nofun ?_
        nofun
      · intro c hc ho
        have hw := h.waiter c p hc ho
        rw [hpc] at hw
        exact hw
      · intro c hc
        exact h.waits p c (by rw [hpc]; exact hc)
  case h_11 b hpc =>
    have hcur : (s.pc p).cur = some b := by rw [hpc]; rfl
    split_ifs at hs with hfree
    cases hs
    refine h.move (locks_acquire h hfree rfl) (h.mine hcur) ?_ nofun ?_ nofun
    · intro c hc ho
      have hw := h.waiter c p hc ho
      rw [hpc] at hw
      exact hw
    · intro c hc
      exact h.waits p c (by rw [hpc]; exact hc)
  case h_12 b hpc =>
    cases hs
    exact h.move (locks_release h (by rw [hpc]; rfl) rfl) nofun
      (fun c hc ho => absurd ho (h.not_queued (by rw [hpc]; rfl) c hc)) nofun nofun nofun
  case h_13 => cases hs

omit [DecidableEq B] [Fintype B] [DecidableEq P] in
theorem finish_inv {err : Bool} (hs : finish err s = some s') : Inv s' := by
  rw [finish] at hs
  cases hd : s.device with
  | working b w =>
    rw [hd] at hs
    cases hs
    have hhead := h.head
    have hcmd := h.cmd
    have htaken := h.taken
    rw [hd] at hhead hcmd htaken
    exact { h with head := hhead, cmd := hcmd, taken := htaken }
  | idle | raised _ _ _ | taken _ _ _ => rw [hd] at hs; cases hs

section

omit [Fintype B] [DecidableEq P]

/-- `ideintr` takes the first buffer off the queue. -/
theorem Inv.complete {q : List B} {err : Bool} {d : Device B α} (hh : s.handler = .serve)
    (hq : s.idequeue = b :: q) (hhead : d.cmd.map Prod.fst = q.head?)
    (hcmd : ∀ c w, d.cmd = some (c, w) → w = if (s.buf c).dirty = true then some (s.buf c).data else none)
    (hd : d.taken? = false) : Inv (Xv6Ide.complete s b q err d) := by
  have hnd := h.nodup
  rw [hq, nodup_cons] at hnd
  have hbq : b ∈ s.idequeue := by rw [hq]; exact mem_cons_self
  have hmem : ∀ c, c ∈ q → c ∈ s.idequeue ∧ c ≠ b := by
    intro c hc
    rw [hq]
    exact ⟨mem_cons_of_mem _ hc, fun hcb => hnd.1 (hcb ▸ hc)⟩
  have hself : (Xv6Ide.complete s b q err d).buf b = served s b err := update_self _ _ _
  have hne : ∀ c, c ≠ b → (Xv6Ide.complete s b q err d).buf c = s.buf c := fun c hc => update_of_ne hc _ _
  have hlocked := h.hlock
  rw [hh] at hlocked
  -- a process that asks for another buffer
  have hasks : ∀ p c, (s.pc p).asks = some c → c ≠ b := by
    rintro p c hc rfl
    exact (h.asks p c hc).1 hbq
  constructor
  · exact h.lock
  · exact hlocked
  · intro c
    by_cases hc : c = b
    · subst hc; rw [hself]; exact h.busy c
    · rw [hne c hc]; exact h.busy c
  · exact h.own
  · exact h.curBound
  · exact hnd.2
  · exact fun c hc => h.queued c (hmem c hc).1
  · exact fun c p hc ho => h.waiter c p (hmem c hc).1 ho
  · intro c hc
    rw [hne c (hmem c hc).2]
    exact h.needs c (hmem c hc).1
  · intro p c hc
    rw [hne c (hasks p c hc)]
    exact ⟨fun hin => (h.asks p c hc).1 (hmem c hin).1, (h.asks p c hc).2⟩
  · intro p c hc
    by_cases hcb : c = b
    · subst hcb
      rw [hself]
      exact .inr rfl
    · rw [hne c hcb]
      rcases h.waits p c hc with hin | hv
      · rw [hq] at hin
        exact .inl (mem_of_ne_of_mem hcb hin)
      · exact .inr hv
  · intro p c hc
    by_cases hcb : c = b
    · subst hcb
      rw [hself]
      rfl
    · rw [hne c hcb]
      exact h.done p c hc
  · exact hhead
  · intro c w hc
    have hcq : c ∈ q := by
      have hc' : d.cmd = some (c, w) := hc
      rw [hc'] at hhead
      exact mem_of_head? hhead.symm
    rw [hne c (hmem c hcq).2]
    exact hcmd c w hc
  · exact hd.symm
  · show s.arrived = (s.completed ++ [b]) ++ q
    rw [h.order, hq, append_assoc]
    rfl
  · intro c hc
    by_cases hcb : c = b
    · subst hcb
      obtain ⟨p, hp⟩ := ne_none_iff_exists'.mp (h.queued c hbq)
      exact h.curBound p c (waits_cur (h.waiter c p hbq hp))
    · rw [hne c hcb] at hc
      exact h.validBound c hc

/-- **A step of the interrupt handler** keeps the invariant. -/
theorem intr_inv (hs : intr s = some s') : Inv s' := by
  unfold intr at hs
  split at hs
  case h_1 b w err hh hd =>
    cases hs
    have hhlock := h.hlock
    have hhead := h.head
    have hcmd := h.cmd
    rw [hh] at hhlock
    rw [hd] at hhead hcmd
    exact { h with hlock := hhlock, head := hhead, cmd := hcmd, taken := rfl }
  case h_2 d hh =>
    split_ifs at hs with hfree
    cases hs
    have htaken := h.taken
    rw [hh] at htaken
    refine { h with lock := fun p => ?_, hlock := ?_, taken := htaken }
    · rw [h.lock p, hfree]
      constructor
      · exact nofun
      · exact fun hf => nomatch (some.inj hf)
    · exact ⟨fun _ => rfl, fun _ => rfl⟩
  case h_3 b w err hh hd =>
    split at hs
    case h_1 hq =>
      have := h.idle hq
      rw [hd] at this
      cases this
    case h_2 b' hq =>
      cases hs
      exact h.complete hh hq rfl nofun rfl
    case h_3 b' c q hq =>
      obtain ⟨d, hstart, rfl⟩ := map_eq_some_iff.mp hs
      obtain rfl := idestart_some hstart
      refine h.complete hh hq rfl (fun e w hc => ?_) rfl
      obtain ⟨rfl, rfl⟩ := Prod.mk.inj (some.inj hc)
      rfl
  case h_4 d hh =>
    cases hs
    have htaken := h.taken
    have hhlock := h.hlock
    rw [hh] at htaken hhlock
    have hheld : s.idelock = some none := hhlock.mp rfl
    refine { h with lock := fun p => ?_, hlock := ?_, taken := htaken }
    · rw [h.lock p, hheld]
      constructor
      · exact fun hf => nomatch (some.inj hf)
      · exact nofun
    · constructor
      · exact nofun
      · exact nofun
  case h_5 => cases hs

end

end

/-! ## Buffers and blocks, when the disk reports no error -/

variable {N : Prop}

/-- A write that is done is on the disk, and no command and no request has failed. Under `N` two buffers
    that have been given blocks have different ones, and a buffer that is valid, clean and not stored into
    since holds its block. -/
structure Data (N : Prop) (s : St P B α) : Prop where
  clean : N → ∀ b, (s.buf b).valid = true → (s.buf b).dirty = false → s.touched b = false →
    (s.buf b).data = s.disk (drive (s.buf b).key)
  single : N → ∀ b c, s.bound b = true → s.bound c = true → b ≠ c → drive (s.buf b).key ≠ drive (s.buf c).key
  written : ∀ b v err, s.device.status = some err → s.device.cmd = some (b, some v) → s.disk (drive (s.buf b).key) = v
  status : ∀ err, s.device.status = some err → err = false
  failed : ∀ b, s.failed b = false

omit [Fintype B] [DecidableEq P] in
/-- A buffer that no request is queued for changes. -/
theorem Data.buffer (h : Data N s) {x : Buf α} (hbuf : s'.buf = update s.buf b x)
    (hdisk : s'.disk = s.disk) (hdev : s'.device = s.device) (hfail : s'.failed = s.failed)
    (hrest : ∀ c, c ≠ b → s'.bound c = s.bound c ∧ s'.touched c = s.touched c) (hout : ∀ w, s.device.cmd ≠ some (b, w))
    (hx : N → x.valid = true → x.dirty = false → s'.touched b = false → x.data = s.disk (drive x.key))
    (hsingle : N → s'.bound b = true → ∀ c, c ≠ b → s.bound c = true → drive (s.buf c).key ≠ drive x.key) :
    Data N s' := by
  refine ⟨fun hN c hv hd ht => ?_, fun hN c e hc he hce => ?_, fun c v err hst hc => ?_,
    by rw [hdev]; exact h.status, by rw [hfail]; exact h.failed⟩
  · rw [hbuf] at hv hd ⊢
    rw [hdisk]
    by_cases hcb : c = b
    · subst hcb
      rw [update_self] at hv hd ⊢
      exact hx hN hv hd ht
    · rw [update_of_ne hcb] at hv hd ⊢
      exact h.clean hN c hv hd ((hrest c hcb).2 ▸ ht)
  · rw [hbuf]
    by_cases hcb : c = b
    · subst hcb
      rw [update_self, update_of_ne hce.symm]
      exact (hsingle hN hc e hce.symm ((hrest e hce.symm).1 ▸ he)).symm
    · by_cases heb : e = b
      · subst heb
        rw [update_self, update_of_ne hcb]
        exact hsingle hN he c hcb ((hrest c hcb).1 ▸ hc)
      · rw [update_of_ne hcb, update_of_ne heb]
        exact h.single hN c e ((hrest c hcb).1 ▸ hc) ((hrest e heb).1 ▸ he) hce
  · rw [hdev] at hst hc
    have hcb : c ≠ b := fun hcb => hout (some v) (hcb ▸ hc)
    rw [hbuf, hdisk, update_of_ne hcb]
    exact h.written c v err hst hc

omit [DecidableEq B] [Fintype B] [DecidableEq P] in
/-- Nothing but the places of processes, the queue and a command just started is new. -/
theorem Data.same (h : Data N s) (hbuf : s'.buf = s.buf) (hdisk : s'.disk = s.disk)
    (hdev : s'.device = s.device ∨ s'.device.status = none) (hfail : s'.failed = s.failed)
    (hbound : s'.bound = s.bound) (htouch : s'.touched = s.touched) : Data N s' := by
  refine ⟨by rw [hbuf, hdisk, htouch]; exact h.clean, by rw [hbuf, hbound]; exact h.single,
    fun c v err hst hc => ?_, fun err hst => ?_, by rw [hfail]; exact h.failed⟩
  · rw [hbuf, hdisk]
    rcases hdev with hdev | hdev
    · rw [hdev] at hst hc; exact h.written c v err hst hc
    · rw [hdev] at hst; cases hst
  · rcases hdev with hdev | hdev
    · rw [hdev] at hst; exact h.status err hst
    · rw [hdev] at hst; cases hst

/-- **A step of a process** keeps what the buffers hold. -/
theorem step_data (hi : Inv s) (h : Data N s) (hfit : N → OneName a s) (hs : step p a s = some s') : Data N s' := by
  have hout : ∀ b, s.pc p = .out → s.owner b = none ∨ s.owner b = some p → ∀ w, s.device.cmd ≠ some (b, w) :=
    fun b hpc ho w hc => (hi.unused hpc ho).2 (hi.cmd_mem hc)
  unfold step at hs
  split at hs
  case h_1 b hpc =>
    split_ifs at hs with hb
    cases hs
    exact h.buffer rfl rfl rfl rfl (fun _ _ => ⟨rfl, rfl⟩) (hout b hpc (.inl (hi.free hb)))
      (fun hN => h.clean hN b) fun hN hb c hc hcb => h.single hN c b hcb hb hc
  case h_2 b k hpc =>
    split_ifs at hs with hb
    cases hs
    refine h.buffer rfl rfl rfl rfl (fun c hc => ⟨update_of_ne hc _ _, rfl⟩) (hout b hpc (.inr hb.1)) nofun ?_
    intro hN _ c hc hcb heq
    exact hb.2.2 c hc (hfit hN c hc hcb heq)
  case h_3 b v hpc =>
    split_ifs at hs with hb
    cases hs
    refine h.buffer rfl rfl rfl rfl (fun c hc => ⟨rfl, update_of_ne hc _ _⟩) (hout b hpc (.inr hb.1)) ?_
      fun hN hb c hc hcb => h.single hN c b hcb hb hc
    intro _ _ _ ht
    cases (show true = false from (update_self b true s.touched).symm.trans ht)
  case h_4 b hpc =>
    split_ifs at hs with hb
    cases hs
    exact h.buffer rfl rfl rfl rfl (fun _ _ => ⟨rfl, rfl⟩) (hout b hpc (.inr hb.1)) nofun
      fun hN hb c hc hcb => h.single hN c b hcb hb hc
  case h_6 b hpc =>
    split_ifs at hs with hb
    cases hs
    exact h.buffer rfl rfl rfl rfl (fun _ _ => ⟨rfl, rfl⟩) (hout b hpc (.inr hb))
      (fun hN => h.clean hN b) fun hN hb c hc hcb => h.single hN c b hcb hb hc
  case h_9 b hpc =>
    split at hs
    case h_1 hq =>
      obtain ⟨d, hd, rfl⟩ := map_eq_some_iff.mp hs
      obtain rfl := idestart_some hd
      exact h.same rfl rfl (.inr rfl) rfl rfl rfl
    case h_2 q hq =>
      cases hs
      exact h.same rfl rfl (.inl rfl) rfl rfl rfl
  case h_12 b hpc =>
    cases hs
    exact h.same rfl rfl (.inl rfl) rfl rfl rfl
  case h_13 => cases hs
  -- only the place of the process and the lock change
  all_goals
    split at hs
    · cases hs
      exact h.same rfl rfl (.inl rfl) rfl rfl rfl
    · cases hs <;> exact h.same rfl rfl (.inl rfl) rfl rfl rfl

section

omit [DecidableEq B] [Fintype B] [DecidableEq P]

/-- A command that succeeds. -/
theorem finish_data (hi : Inv s) (h : Data N s) (hs : finish false s = some s') : Data N s' := by
  rw [finish] at hs
  cases hd : s.device with
  | working b w =>
    rw [hd] at hs
    cases hs
    cases w with
    | none =>
      refine ⟨h.clean, h.single, fun c v err _ hc => ?_, fun err hst => (some.inj hst).symm, h.failed⟩
      cases hc
    | some v =>
      have hbq : b ∈ s.idequeue := hi.cmd_mem (w := some v) (by rw [hd]; rfl)
      have hdirty : (s.buf b).dirty = true := by
        have := hi.cmd b (some v) (by rw [hd]; rfl)
        by_cases hc : (s.buf b).dirty = true
        · exact hc
        · rw [if_neg hc] at this; cases this
      obtain ⟨p, hp⟩ := ne_none_iff_exists'.mp (hi.queued b hbq)
      have hbound := hi.curBound p b (waits_cur (hi.waiter b p hbq hp))
      refine ⟨fun hN c hv hcl ht => ?_, h.single, fun c v' err _ hc => ?_, fun err hst => (some.inj hst).symm, h.failed⟩
      · have hcb : c ≠ b := by
          rintro rfl
          cases hdirty.symm.trans hcl
        show (s.buf c).data = update s.disk (drive (s.buf b).key) v (drive (s.buf c).key)
        rw [update_of_ne (h.single hN c b (hi.validBound c (.inl hv)) hbound hcb)]
        exact h.clean hN c hv hcl ht
      · obtain ⟨rfl, rfl⟩ : b = c ∧ v = v' := by simpa using hc
        exact update_self _ _ _
  | idle | raised _ _ _ | taken _ _ _ => rw [hd] at hs; cases hs

/-- The first request is completed without an error: its buffer holds its block. -/
theorem Data.served (hi : Inv s) (h : Data N s) {q : List B} {w : Option α} {b' : B}
    (hdev : s.device = .taken b' w false) (hq : s.idequeue = b :: q) :
    (Xv6Ide.served s b false).data = s.disk (drive (s.buf b).key) := by
  have hhead := hi.head
  rw [hdev, hq] at hhead
  obtain rfl : b' = b := some.inj hhead
  show (if (s.buf b').dirty = false ∧ false = false then s.disk (drive (s.buf b').key)
    else (s.buf b').data) = s.disk (drive (s.buf b').key)
  by_cases hdirty : (s.buf b').dirty = false
  · rw [if_pos ⟨hdirty, rfl⟩]
  · -- the data of the write is on the disk
    rw [if_neg fun hc => hdirty hc.1]
    have hw := hi.cmd b' w (by rw [hdev]; rfl)
    rw [if_pos (Bool.eq_true_of_not_eq_false hdirty)] at hw
    exact (h.written b' _ false (by rw [hdev]; rfl) (by rw [hdev, hw]; rfl)).symm

end

section

omit [Fintype B] [DecidableEq P]

/-- Then the buffers hold their blocks as before. -/
theorem Data.complete (hi : Inv s) (h : Data N s) {q : List B} {w : Option α} {b' : B} {d : Device B α}
    (hdev : s.device = .taken b' w false) (hq : s.idequeue = b :: q) (hd : d.status = none) :
    Data N (complete s b q false d) := by
  have hself : (Xv6Ide.complete s b q false d).buf b = Xv6Ide.served s b false := update_self _ _ _
  have hne : ∀ c, c ≠ b → (Xv6Ide.complete s b q false d).buf c = s.buf c := fun c hc => update_of_ne hc _ _
  have hkey : ∀ c, ((Xv6Ide.complete s b q false d).buf c).key = (s.buf c).key := by
    intro c
    by_cases hcb : c = b
    · subst hcb; rw [hself]; rfl
    · rw [hne c hcb]
  have hnone : ∀ err, (Xv6Ide.complete s b q false d).device.status ≠ some err := by
    intro err hst
    rw [show (Xv6Ide.complete s b q false d).device.status = none from hd] at hst
    cases hst
  refine ⟨fun hN c hv hcl ht => ?_, fun hN c e hc he hce => ?_, fun c v err hst => absurd hst (hnone err),
    fun err hst => absurd hst (hnone err), fun c => ?_⟩
  · rw [hkey]
    by_cases hcb : c = b
    · subst hcb
      rw [hself]
      exact h.served hi hdev hq
    · rw [hne c hcb] at hv hcl ⊢
      rw [show (Xv6Ide.complete s b q false d).touched c = s.touched c from update_of_ne hcb _ _] at ht
      exact h.clean hN c hv hcl ht
  · rw [hkey, hkey]
    exact h.single hN c e hc he hce
  · show update s.failed b false c = false
    rw [update_apply]
    split_ifs
    · rfl
    · exact h.failed c

/-- **A step of the handler** keeps what the buffers hold. -/
theorem intr_data (hi : Inv s) (h : Data N s) (hs : intr s = some s') : Data N s' := by
  unfold intr at hs
  split at hs
  case h_1 b w err hh hd =>
    cases hs
    refine ⟨h.clean, h.single, fun c v e hst hc => ?_, fun e hst => ?_, h.failed⟩
    · exact h.written c v err (by rw [hd]; rfl) (by rw [hd]; exact hc)
    · exact h.status e (by rw [hd]; exact hst)
  case h_2 d hh =>
    split_ifs at hs
    cases hs
    exact h.same rfl rfl (.inl rfl) rfl rfl rfl
  case h_3 b w err hh hd =>
    obtain rfl : err = false := h.status err (by rw [hd]; rfl)
    split at hs
    case h_1 hq =>
      cases hs
      exact h.same rfl rfl (.inl rfl) rfl rfl rfl
    case h_2 b' hq =>
      cases hs
      exact h.complete hi hd hq rfl
    case h_3 b' c q hq =>
      obtain ⟨d, hstart, rfl⟩ := map_eq_some_iff.mp hs
      obtain rfl := idestart_some hstart
      exact h.complete hi hd hq rfl
  case h_4 d hh =>
    cases hs
    exact h.same rfl rfl (.inl rfl) rfl rfl rfl
  case h_5 => cases hs

end

/-! ## Whole runs -/

omit [DecidableEq B] [Fintype B] [DecidableEq P] in
theorem init_inv (have1 : Bool) (disk : Key → α) (data : B → α) : Inv (init P B have1 disk data) where
  lock := fun _ => ⟨(nomatch ·), (nomatch ·)⟩
  hlock := ⟨(nomatch ·), (nomatch ·)⟩
  busy := fun _ => rfl
  own := nofun
  curBound := nofun
  nodup := nodup_nil
  queued := nofun
  waiter := nofun
  needs := nofun
  asks := nofun
  waits := nofun
  done := nofun
  head := rfl
  cmd := nofun
  taken := rfl
  order := rfl
  validBound := by rintro _ (h | h) <;> exact nomatch h

variable {fit : Act B α → St P B α → Prop}

/-- **The invariant of the queue** holds in every state of every run, whatever the disk reports. -/
theorem queue_inv {ok : Bool → Bool} (h : Reach ok fit s) : Inv s := by
  obtain ⟨have1, disk, data, hrun⟩ := h
  refine run_inv (init_inv have1 disk data) (fun s s' hi hs => ?_) hrun
  rcases hs with hs | ⟨err, -, hs⟩ | ⟨p, a, -, hs⟩
  · exact intr_inv hi hs
  · exact finish_inv hi hs
  · exact step_inv hi hs

/-- **What the buffers hold** in every state of a run in which the disk reports no error. -/
theorem reach_data (hN : N → ∀ a s, fit a s → OneName a s) (h : Reach (fun err => !err) fit s) : Inv s ∧ Data N s := by
  obtain ⟨have1, disk, data, hrun⟩ := h
  have hinit : Data N (init P B have1 disk data) := ⟨fun _ => nofun, fun _ => nofun, nofun, nofun, fun _ => rfl⟩
  refine run_inv (I := fun s => Inv s ∧ Data N s) ⟨init_inv have1 disk data, hinit⟩ (fun s s' hi hs => ?_) hrun
  rcases hs with hs | ⟨err, hok, hs⟩ | ⟨p, a, hfit, hs⟩
  · exact ⟨intr_inv hi.1 hs, intr_data hi.1 hi.2 hs⟩
  · obtain rfl : err = false := by simpa using hok
    exact ⟨finish_inv hi.1 hs, finish_data hi.1 hi.2 hs⟩
  · exact ⟨step_inv hi.1 hs, step_data hi.1 hi.2 (fun hn => hN hn a s hfit) hs⟩

theorem needs_false {x : Buf α} : Buf.needs x = false ↔ x.valid = true ∧ x.dirty = false := by
  unfold Buf.needs
  cases x.valid <;> cases x.dirty <;> decide

/-- The first request of the queue of `s` has been completed in `s'`: what its buffer holds is on its
    block, and it is what a write has had in the buffer. -/
structure Completed (s s' : St P B α) (b : B) : Prop where
  queue : s.idequeue = b :: s'.idequeue
  completed : s'.completed = s.completed ++ [b]
  data : (s'.buf b).data = s'.disk (drive (s'.buf b).key)
  kept : (s.buf b).dirty = true → (s'.buf b).data = (s.buf b).data
  valid : (s'.buf b).valid = true ∧ (s'.buf b).dirty = false

section

omit [Fintype B] [DecidableEq P]

theorem completed_complete (hi : Inv s) (h : Data N s) {q : List B} {w : Option α} {b' : B} {d : Device B α}
    (hdev : s.device = .taken b' w false) (hq : s.idequeue = b :: q) : Completed s (complete s b q false d) b := by
  have hself : (complete s b q false d).buf b = served s b false := update_self _ _ _
  have hflags : ((complete s b q false d).buf b).valid = true ∧
      ((complete s b q false d).buf b).dirty = false := by rw [hself]; exact ⟨rfl, rfl⟩
  refine ⟨hq, rfl, ?_, fun hdirty => ?_, hflags⟩
  · rw [hself]
    exact h.served hi hdev hq
  · rw [hself]
    exact if_neg fun hc => Bool.false_ne_true (hc.1.symm.trans hdirty)

/-- A step of the handler completes the first request, or none. -/
theorem intr_completed (hi : Inv s) (h : Data N s) (hs : intr s = some s') :
    (s'.completed = s.completed ∧ s'.idequeue = s.idequeue) ∨ ∃ b, Completed s s' b := by
  unfold intr at hs
  split at hs
  case h_1 => cases hs; exact .inl ⟨rfl, rfl⟩
  case h_2 =>
    split_ifs at hs
    cases hs; exact .inl ⟨rfl, rfl⟩
  case h_3 b w err hh hd =>
    obtain rfl : err = false := h.status err (by rw [hd]; rfl)
    split at hs
    case h_1 hq => cases hs; exact .inl ⟨rfl, rfl⟩
    case h_2 b' hq =>
      cases hs
      exact .inr ⟨b', completed_complete hi h hd hq⟩
    case h_3 b' c q hq =>
      obtain ⟨d, hstart, rfl⟩ := map_eq_some_iff.mp hs
      obtain rfl := idestart_some hstart
      exact .inr ⟨b', completed_complete hi h hd hq⟩
  case h_4 => cases hs; exact .inl ⟨rfl, rfl⟩
  case h_5 => cases hs

end

/-- **The queue serves every request once and in order**, when the disk reports no error. No buffer is
    in the queue twice; the disk works for the first one and for no other; the requests that have arrived
    are those completed, in order, followed by the queue; the handler completes the first one, with the data
    moved; `iderw` returns with the buffer valid and clean; and `idestart` does not panic for a block of
    the disk. -/
theorem queue_serves_in_order (h : Reach (fun err => !err) (fun _ _ => True) s) : s.idequeue.Nodup ∧
      s.device.cmd.map Prod.fst = s.idequeue.head? ∧ s.arrived = s.completed ++ s.idequeue ∧
      (∀ p b, (s.pc p).waits = some b → b ∈ s.idequeue ∨ (s.buf b).valid = true ∧ (s.buf b).dirty = false) ∧
      (∀ s', intr s = some s' → (s'.completed = s.completed ∧ s'.idequeue = s.idequeue) ∨ ∃ b, Completed s s' b) ∧
      (∀ p b, s.pc p = .rel b → (s.buf b).valid = true ∧ (s.buf b).dirty = false) ∧
      ∀ b, (s.buf b).blockno.toNat < FSSIZE → (idestart s b).isSome = true := by
  obtain ⟨hi, hd⟩ := reach_data (N := False) False.elim h
  refine ⟨hi.nodup, hi.head, hi.order, fun p b hw => ?_, fun s' hs => intr_completed hi hd hs,
    fun p b hrel => needs_false.mp (hi.done p b hrel), fun b hb => ?_⟩
  · exact (hi.waits p b hw).imp id needs_false.mp
  · rw [idestart, if_neg (Nat.not_le.mpr hb)]
    rfl

/-- **A valid buffer holds the disk's data**, and no failed request is reported as done, in every run in
    which the disk reports no error and no block gets a second buffer under another device number; a
    buffer stored into since its last request is left out until it is marked dirty. -/
theorem valid_holds_block (h : Reach (fun err => !err) OneName s) : (∀ b, (s.buf b).valid = true →
      (s.buf b).dirty = false → s.touched b = false → (s.buf b).data = s.disk (drive (s.buf b).key)) ∧
    ∀ p b, s.pc p = .rel b → s.failed b = false := by
  obtain ⟨-, hd⟩ := reach_data (N := True) (fun _ _ _ hfit => hfit) h
  exact ⟨hd.clean trivial, fun _ b _ => hd.failed b⟩

end Steps

/-! ## Runs -/

/-- A step of the handler, of the disk, or of a process. -/
inductive Move (P B α : Type) where
  | intr
  | finish (err : Bool)
  | proc (p : P) (a : Act B α)

def move (s : St P B α) : Move P B α → Option (St P B α)
  | .intr => intr s
  | .finish err => finish err s
  | .proc p a => step p a s

def moves (s : St P B α) : List (Move P B α) → Option (St P B α)
  | [] => some s
  | m :: ms => (move s m).bind (moves · ms)

/-- The statuses that the disk reports in such a run. -/
def Move.ok (ok : Bool → Bool) : Move P B α → Bool
  | .finish err => ok err
  | _ => true

theorem moves_trans {ok : Bool → Bool} {fit : Act B α → St P B α → Prop} (hfit : ∀ a s, fit a s) {ms : List (Move P B α)} :
    ∀ {s s' : St P B α}, (∀ m ∈ ms, m.ok ok = true) → moves s ms = some s' →
      Relation.ReflTransGen (Step ok fit) s s' := by
  induction ms with
  | nil =>
    intro s s' _ h
    cases h
    exact .refl
  | cons m ms ih =>
    intro s s' hok h
    obtain ⟨s₁, h₁, h₂⟩ := bind_eq_some_iff.mp h
    refine .head ?_ (ih (fun m hm => hok m (mem_cons_of_mem _ hm)) h₂)
    have hm := hok m mem_cons_self
    cases m with
    | intr => exact .inl h₁
    | finish err => exact .inr (.inl ⟨err, hm, h₁⟩)
    | proc p a => exact .inr (.inr ⟨p, a, hfit a s, h₁⟩)

/-- Process `p` calls `iderw(b)` and waits in it. -/
def request {P B : Type} (p : P) (b : B) : List (Move P B Bool) :=
  [.proc p (.iderw b), .proc p .go, .proc p .go, .proc p .go, .proc p .go]

/-- The disk is done, and `ideintr` runs. -/
def interrupt {P B : Type} (err : Bool) : List (Move P B Bool) := [.finish err, .intr, .intr, .intr, .intr]

/-- Two processes, each with a buffer of its own: the first one reads block 5 of drive 0, and while the disk
    is at work the second one asks to write `false` to block 6. -/
def twoRequests : List (Move Bool Bool Bool) :=
  [.proc false (.get false), .proc false (.bind false (0, 5))] ++ request false false ++
  [.proc true (.get true), .proc true (.bind true (0, 6)), .proc true (.store true false), .proc true (.dirty true)] ++
  request true true

/-- The disk holds `true` everywhere, and the buffers `false`. -/
def blank (P B : Type) : St P B Bool := init P B false (fun _ => true) (fun _ => false)

/-- **Two requests in the queue**: the first interrupt completes the read and starts the write, and the
    second one completes the write. -/
theorem queue_serves_in_order_two : ∃ s₁ s₂ : St Bool Bool Bool, Reach (fun err => !err) (fun _ _ => True) s₁ ∧
    Reach (fun err => !err) (fun _ _ => True) s₂ ∧
    (s₁.idequeue = [true] ∧ s₁.completed = [false] ∧ s₁.device.cmd = some (true, some false)) ∧
    (s₂.idequeue = [] ∧ s₂.completed = [false, true] ∧ (s₂.buf false).data = true ∧ s₂.disk (0, 6) = false) ∧
    s₁.arrived = s₁.completed ++ s₁.idequeue ∧ s₂.arrived = s₂.completed ++ s₂.idequeue := by
  have h₁ : (moves (blank Bool Bool) (twoRequests ++ interrupt false)).map
      (fun s => (s.idequeue, s.completed, s.device.cmd)) = some ([true], [false], some (true, some false)) := by
    decide +kernel
  have h₂ : (moves (blank Bool Bool) (twoRequests ++ interrupt false ++ interrupt false)).map
      (fun s => (s.idequeue, s.completed, (s.buf false).data, s.disk (0, 6))) = some ([], [false, true], true, false) := by
    decide +kernel
  obtain ⟨s₁, hs₁, heq₁⟩ := map_eq_some_iff.mp h₁
  obtain ⟨s₂, hs₂, heq₂⟩ := map_eq_some_iff.mp h₂
  simp only [Prod.mk.injEq] at heq₁ heq₂
  have hr₁ : Reach (fun err => !err) (fun _ _ => True) s₁ := ⟨_, _, _, moves_trans (fun _ _ => trivial) (by decide) hs₁⟩
  have hr₂ : Reach (fun err => !err) (fun _ _ => True) s₂ := ⟨_, _, _, moves_trans (fun _ _ => trivial) (by decide) hs₂⟩
  exact ⟨s₁, s₂, hr₁, hr₂, heq₁, heq₂, (queue_serves_in_order hr₁).2.2.1, (queue_serves_in_order hr₂).2.2.1⟩

/-- The first of the two requests fails; the queue is sound where the second one is at work. -/
theorem queue_inv_two : ∃ s : St Bool Bool Bool, Reach (fun _ => true) (fun _ _ => True) s ∧ s.failed false = true ∧
    s.idequeue = [true] ∧ Inv s := by
  have h : (moves (blank Bool Bool) (twoRequests ++ interrupt true)).map (fun s => (s.failed false, s.idequeue)) =
      some (true, [true]) := by decide +kernel
  obtain ⟨s, hs, heq⟩ := map_eq_some_iff.mp h
  simp only [Prod.mk.injEq] at heq
  have hr : Reach (fun _ => true) (fun _ _ => True) s := ⟨_, _, _, moves_trans (fun _ _ => trivial) (by decide) hs⟩
  exact ⟨s, hr, heq.1, heq.2, queue_inv hr⟩

/-- Block 5 of drive 0 is read into the one buffer; the run stops where `iderw` returns. -/
def readBlock (err : Bool) : List (Move Unit Unit Bool) :=
  [.proc () (.get ()), .proc () (.bind () (0, 5))] ++ request () () ++ interrupt err ++ [.proc () .go, .proc () .go]

/-- Then `false` is stored into the buffer and written. -/
def writeBack : List (Move Unit Unit Bool) :=
  [.proc () .go, .proc () (.store () false), .proc () (.dirty ())] ++ request () () ++ interrupt false

/-- After a read and a write of its block the one buffer holds it. -/
theorem valid_holds_block_written : ∃ s : St Unit Unit Bool, Reach (fun err => !err) OneName s ∧
    (s.buf ()).valid = true ∧ (s.buf ()).dirty = false ∧ s.touched () = false ∧ (s.buf ()).data = false ∧
      (s.buf ()).data = s.disk (drive (s.buf ()).key) := by
  have hdata : (moves (blank Unit Unit) (readBlock false ++ writeBack)).map
      (fun s => ((s.buf ()).valid, (s.buf ()).dirty, s.touched (), (s.buf ()).data)) =
      some (true, false, false, false) := by decide +kernel
  obtain ⟨s, hs, heq⟩ := map_eq_some_iff.mp hdata
  simp only [Prod.mk.injEq] at heq
  have hname : ∀ (a : Act Unit Bool) (s : St Unit Unit Bool), OneName a s := by
    intro a s
    cases a with
    | bind b k => exact fun c hc => absurd rfl hc
    | go | get _ | store _ _ | dirty _ | iderw _ | put _ => exact trivial
  have hr : Reach (fun err => !err) OneName s := ⟨_, _, _, moves_trans hname (by decide) hs⟩
  obtain ⟨hv, hd, ht, hx⟩ := heq
  exact ⟨s, hr, hv, hd, ht, hx, (valid_holds_block hr).1 () hv hd ht⟩

/-- **The disk fails a read**, and `iderw` returns with the buffer marked valid, and with what has been in
    it before. -/
theorem failed_read_valid : ∃ s : St Unit Unit Bool,
    Reach (fun _ => true) (fun _ _ => True) s ∧ s.pc () = .rel () ∧ (s.buf ()).valid = true ∧ (s.buf ()).dirty = false ∧
      s.touched () = false ∧ (s.buf ()).data ≠ s.disk (drive (s.buf ()).key) ∧ s.failed () = true := by
  have hdata : (moves (blank Unit Unit) (readBlock true)).map (fun s => ((s.pc (), (s.buf ()).valid, (s.buf ()).dirty,
      s.touched ()), (s.buf ()).data, s.disk (drive (s.buf ()).key), s.failed ())) =
      some ((.rel (), true, false, false), false, true, true) := by decide +kernel
  obtain ⟨s, hs, heq⟩ := map_eq_some_iff.mp hdata
  simp only [Prod.mk.injEq] at heq
  obtain ⟨⟨hpc, hv, hd, ht⟩, hdata, hdisk, hf⟩ := heq
  refine ⟨s, ⟨_, _, _, moves_trans (fun _ _ => trivial) (by decide) hs⟩, hpc, hv, hd, ht, ?_, hf⟩
  rw [hdata, hdisk]
  decide

end Xv6Ide
