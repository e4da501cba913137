import Mathlib.Algebra.Order.BigOperators.Group.Finset
import Xv6.CommitSetProofs

/-!
# Log space — what `begin_op` reserves and what `log_write` needs

`begin_op` reserves `MAXOPBLOCKS` blocks for each outstanding operation, against a log of
`LOGSIZE` blocks. `log_write` refuses to go on as soon as the header lists `log.size - 1`
blocks, because one block of the log is its header, and it does so before it looks whether
the block is listed already. With the `log.size = LOGSIZE` of `mkfs` the two do not fit: three
operations that use all of their reservation fill the log before they are done.

`room` is what the operations in progress may still need. The reservation would be sufficient
if `begin_op` let an operation in only when the room left for it stays clear of the last
two blocks of the log (`RoomyStep`).
-/

set_option linter.unusedSectionVars false

namespace Xv6Group

open Interleave Xv6Disk Xv6Kernel Function List Option Relation

variable {P : Type} [DecidableEq P]

/-- A step in a run where every operation logs at most `MAXOPBLOCKS` distinct blocks. -/
def BoundedStep (size : Nat) (s s' : St P) : Prop :=
  ∃ p a, step size p a s = some s' ∧ ∀ b, a = .log b → (absorb (s.mine p) b).length ≤ MAXOPBLOCKS

/-- What process `q` may still add to the header in its current operation. -/
def need (s : St P) (q : P) : Nat :=
  if (s.pc q).kind.op = true then MAXOPBLOCKS - (s.mine q).length else 0

/-- How long the header can get before the operations in progress have ended. -/
def room [Fintype P] (s : St P) : Nat := s.lh.length + ∑ q, need s q

/-- A step in a run where, moreover, `begin_op` admits an operation only if the header
    stays shorter than `size - 1` when all operations use what they may use. -/
def RoomyStep [Fintype P] (size : Nat) (s s' : St P) : Prop :=
  ∃ p a, step size p a s = some s' ∧ (∀ b, a = .log b → (absorb (s.mine p) b).length ≤ MAXOPBLOCKS) ∧
    (s.pc p = .beginTest → s.committing = false → ¬ Full s → room s + MAXOPBLOCKS + 2 ≤ size)

section Space

variable [Fintype P] {size : Nat} {p : P} {a : Act} {s s' : St P}

/-- What `p` needs, apart from what the others do. -/
theorem room_split (s : St P) (p : P) : room s = s.lh.length + (need s p + ∑ q ∈ Finset.univ.erase p, need s q) := by
  rw [room, Finset.add_sum_erase _ _ (Finset.mem_univ p)]

/-- A step of `p` changes what `p` needs and nothing else. -/
theorem room_step (hlh : s'.lh.length + need s' p ≤ s.lh.length + need s p)
    (hq : ∀ q, q ≠ p → need s' q ≤ need s q) : room s' ≤ room s := by
  have h3 : ∑ q ∈ Finset.univ.erase p, need s' q ≤ ∑ q ∈ Finset.univ.erase p, need s q :=
    Finset.sum_le_sum fun q hq' => hq q (Finset.ne_of_mem_erase hq')
  rw [room_split s' p, room_split s p]
  omega

/-- What the space argument needs of a state: enough room, and no operation that goes over
    its reservation. -/
structure Space (size : Nat) (s : St P) : Prop where
  fits : room s + 2 ≤ size
  bound : ∀ q b, (s.pc q).kind.arg = some b → (absorb (s.mine q) b).length ≤ MAXOPBLOCKS
  calm : ∀ q, s.pc q ≠ .panicked .tooBig

theorem need_of_op {q : P} (h : (s.pc q).kind.op = true) : need s q = MAXOPBLOCKS - (s.mine q).length := if_pos h

theorem need_of_not {q : P} (h : (s.pc q).kind.op = false) : need s q = 0 :=
  if_neg (by rw [h]; exact Bool.false_ne_true)

/-- A move of `p` that does not begin an operation and leaves the header alone. -/
theorem room_frame {c : Pc} (hpc : s'.pc = update s.pc p c)
    (hlh : s'.lh.length ≤ s.lh.length) (hmine : s'.mine = s.mine)
    (hop : c.kind.op = true → (s.pc p).kind.op = true) : room s' ≤ room s := by
  refine room_step (p := p) ?_ ?_
  · have hneed : need s' p ≤ need s p := by
      cases hk : c.kind.op with
      | false =>
        rw [need_of_not (s := s') (by rw [hpc, update_self]; exact hk)]
        exact Nat.zero_le _
      | true =>
        rw [need_of_op (s := s') (by rw [hpc, update_self]; exact hk), need_of_op (hop hk), hmine]
    omega
  · intro q hqp
    show (if _ then _ else _) ≤ (if _ then _ else _)
    rw [hpc, update_of_ne hqp, hmine]

/-- Logging a block uses up what the operation had reserved for it. -/
theorem room_store (hdata : Data s) (hno : ∀ q, (s.pc q).kind.past = false)
    {b : Nat} (hop : (s.pc p).kind.op = true) (hb : (absorb (s.mine p) b).length ≤ MAXOPBLOCKS)
    (hpc : s'.pc = update s.pc p .logRel) (hlh : s'.lh = absorb s.lh b)
    (hmine : s'.mine = update s.mine p (absorb (s.mine p) b)) : room s' ≤ room s := by
  refine room_step (p := p) ?_ ?_
  · rw [need_of_op (s := s') (by rw [hpc, update_self]; rfl), need_of_op hop, hmine, update_self, hlh]
    by_cases hmem : b ∈ s.mine p
    · -- the operation has logged the block before, so the header lists it
      have hin : b ∈ s.lh := (hdata.logged hno b).mpr (Or.inr ⟨p, hmem⟩)
      rw [absorb, absorb, if_pos hmem, if_pos hin]
    · rw [absorb, if_neg hmem, length_append] at hb
      have hlen : (absorb (s.mine p) b).length = (s.mine p).length + 1 := by
        rw [absorb, if_neg hmem, length_append]; rfl
      have hlh' : (absorb s.lh b).length ≤ s.lh.length + 1 := by
        rw [absorb]
        split_ifs with hin
        · omega
        · rw [length_append]
          exact le_refl _
      have hone : [b].length = 1 := rfl
      omega
  · intro q hqp
    show (if _ then _ else _) ≤ (if _ then _ else _)
    rw [hpc, hmine, update_of_ne hqp, update_of_ne hqp]

/-- The end of an operation gives back what it did not use. -/
theorem room_end {c : Pc} (hc : c.kind.op = false) (hpc : s'.pc = update s.pc p c)
    (hlh : s'.lh = s.lh) (hmine : s'.mine = update s.mine p []) : room s' ≤ room s := by
  refine room_step (p := p) ?_ ?_
  · rw [need_of_not (s := s') (by rw [hpc, update_self]; exact hc), hlh]
    omega
  · intro q hqp
    show (if _ then _ else _) ≤ (if _ then _ else _)
    rw [hpc, hmine, update_of_ne hqp, update_of_ne hqp]

/-- A new operation needs `MAXOPBLOCKS` blocks more. -/
theorem room_enter (hmine0 : s.mine p = []) (hp : (s.pc p).kind.op = false)
    (hpc : s'.pc = update s.pc p .beginRel) (hlh : s'.lh = s.lh)
    (hmine : s'.mine = s.mine) : room s' ≤ room s + MAXOPBLOCKS := by
  have h3 : ∑ q ∈ Finset.univ.erase p, need s' q = ∑ q ∈ Finset.univ.erase p, need s q := by
    refine Finset.sum_congr rfl ?_
    intro q hq
    show (if _ then _ else _) = (if _ then _ else _)
    rw [hpc, update_of_ne (Finset.ne_of_mem_erase hq), hmine]
  have h4 : need s' p = MAXOPBLOCKS := by
    rw [need_of_op (s := s') (by rw [hpc, update_self]; rfl), hmine, hmine0]
    rfl
  rw [room_split s' p, room_split s p, h3, h4, hlh, need_of_not hp]
  omega

theorem room_effect (hctl : Ctl s) (hdata : Data s) (hsp : Space size s)
    (hroom : s.pc p = .beginTest → s.committing = false → ¬ Full s → room s + MAXOPBLOCKS + 2 ≤ size)
    (he : Effect size p a s s') : room s' + 2 ≤ size := by
  have hfits := hsp.fits
  have hle : room s' ≤ room s → room s' + 2 ≤ size := fun h => by omega
  cases he with
  | silent _ _ hk | acq _ _ hk | rel _ _ _ hk | pacq _ _ hk =>
    have e := congrArg Kind.op hk
    exact hle (room_frame rfl (le_refl _) rfl fun hf => e.symm.trans hf)
  | enter hc hf hpc hp =>
    have hadm := hroom hpc hc hf
    have hp' : (s.pc p).kind.op = false := congrArg Kind.op hp
    have hgrow : room { s.to p .beginRel with outstanding := s.outstanding + 1 }
        ≤ room s + MAXOPBLOCKS := room_enter (hdata.mine p hp') hp' rfl rfl rfl
    omega
  | @store b i hpc hp =>
    have hop : (s.pc p).kind.op = true := congrArg Kind.op hp
    refine hle (room_store hdata (hctl.noPast hop) hop (hsp.bound p b (congrArg Kind.arg hp))
      rfl ?_ rfl)
    rw [hdata.index p b i hpc]
    exact store_eq_absorb s.lh b
  | endPanic hc hp =>
    rw [(hctl.running (congrArg Kind.op hp)).2] at hc
    cases hc
  | endLast _ _ _ => exact hle (room_end (c := .endRel true) rfl rfl rfl rfl)
  | endMore _ _ _ => exact hle (room_end (c := .endWakeAcq) rfl rfl rfl rfl)
  | @wake c _ hk hp =>
    refine hle (room_step (p := p) ?_ ?_)
    · show s.lh.length + (if (update (fun q => awake (s.pc q)) p c p).kind.op = true
        then _ else 0) ≤ _
      rw [update_self, hk, if_neg Bool.false_ne_true]
      omega
    · intro q hqp
      show (if (update (fun q => awake (s.pc q)) p c q).kind.op = true
        then MAXOPBLOCKS - (s.mine q).length else 0) ≤ need s q
      rw [update_of_ne hqp, kind_awake Kind.op rfl]
      exact le_refl _
  | clear hp =>
    exact hle (room_frame rfl (Nat.zero_le _) rfl nofun)
  | _ =>
    rename_i hp
    refine hle (room_frame rfl (le_refl _) rfl ?_)
    rw [hp]; exact id

/-- Nobody else's call changes, and `p` makes no new one. -/
theorem bound_frame (hsp : Space size s) {c : Pc} (hpc : s'.pc = update s.pc p c)
    (hmine : ∀ q, q ≠ p → s'.mine q = s.mine q)
    (hc : ∀ b, c.kind.arg = some b → (absorb (s'.mine p) b).length ≤ MAXOPBLOCKS) :
    ∀ q b, (s'.pc q).kind.arg = some b → (absorb (s'.mine q) b).length ≤ MAXOPBLOCKS := by
  intro q b hq
  rw [hpc, update_apply] at hq
  split_ifs at hq with hqp
  · subst hqp
    exact hc b hq
  · rw [hmine q hqp]
    exact hsp.bound q b hq

theorem bound_effect (hsp : Space size s)
    (hcall : ∀ b, a = .log b → (absorb (s.mine p) b).length ≤ MAXOPBLOCKS) (he : Effect size p a s s') :
    ∀ q b, (s'.pc q).kind.arg = some b → (absorb (s'.mine q) b).length ≤ MAXOPBLOCKS := by
  have hother : ∀ l : List Nat, ∀ q, q ≠ p → update s.mine p l q = s.mine q :=
    fun _ _ hqp => update_of_ne hqp _ _
  cases he with
  | silent _ _ hk | acq _ _ hk | rel _ _ _ hk | pacq _ _ hk =>
    have e := congrArg Kind.arg hk
    exact bound_frame hsp rfl (fun _ _ => rfl) fun b hb => hsp.bound p b (e.symm.trans hb)
  | call ha _ =>
    refine bound_frame hsp rfl (fun _ _ => rfl) ?_
    intro b hb
    cases hb
    exact hcall _ ha
  | scan hp =>
    refine bound_frame hsp rfl (fun _ _ => rfl) ?_
    intro b hb
    cases hb
    exact hsp.bound p _ (congrArg Kind.arg hp)
  | store _ _ | endLast _ _ _ | endMore _ _ _ => exact bound_frame hsp rfl (hother _) nofun
  | @wake c _ hk _ =>
    intro q b hq
    by_cases hqp : q = p
    · subst hqp
      have hq' : (update (fun q => awake (s.pc q)) q c q).kind.arg = some b := hq
      rw [update_self, hk] at hq'
      cases hq'
    · have hq' : (update (fun q => awake (s.pc q)) p c q).kind.arg = some b := hq
      rw [update_of_ne hqp] at hq'
      refine hsp.bound q b ?_
      cases hpq : s.pc q with
      | sleeping => rw [hpq] at hq'; cases hq'
      | _ => rw [hpq] at hq'; exact hq'
  | _ => exact bound_frame hsp rfl (fun _ _ => rfl) nofun

theorem calm_frame (hsp : Space size s) {c : Pc} (hpc : s'.pc = update s.pc p c)
    (hc : c ≠ .panicked .tooBig) : ∀ q, s'.pc q ≠ .panicked .tooBig := by
  intro q hq
  rw [hpc, update_apply] at hq
  split_ifs at hq
  · exact hc hq
  · exact hsp.calm q hq

theorem calm_effect (hsize : size ≤ LOGSIZE) (hsp : Space size s) (he : Effect size p a s s') :
    ∀ q, s'.pc q ≠ .panicked .tooBig := by
  cases he with
  | silent ht _ _ | rel _ ht _ _ => exact calm_frame hsp rfl ht
  | acq _ _ hk =>
    refine calm_frame hsp rfl ?_
    rintro rfl
    cases congrArg Kind.lock hk
  | pacq _ _ hk =>
    refine calm_frame hsp rfl ?_
    rintro rfl
    cases congrArg Kind.plock hk
  | tooBig hn _ =>
    -- the header is never as long as the tests of `log_write` ask for
    exfalso
    have h1 : s.lh.length ≤ room s := Nat.le_add_right _ _
    have h2 := hsp.fits
    rcases hn with hn | hn <;> omega
  | @wake c _ hk _ =>
    intro q hq
    have hq' : update (fun q => awake (s.pc q)) p c q = .panicked .tooBig := hq
    rw [update_apply] at hq'
    split_ifs at hq'
    · rw [hq'] at hk
      cases hk
    · refine hsp.calm q ?_
      cases hpq : s.pc q with
      | sleeping => rw [hpq] at hq'; cases hq'
      | _ => rw [hpq] at hq'; exact hq'
  | _ => exact calm_frame hsp rfl nofun

theorem space_init (hsize : 2 ≤ size) : Space size (init P) := by
  constructor
  · have h0 : ∑ q, need (init P) q = 0 := Finset.sum_eq_zero fun q _ => rfl
    show 0 + ∑ q, need (init P) q + 2 ≤ size
    omega
  · exact nofun
  · exact nofun

/-- **Log space.** With the log of `mkfs`, in every run in which each operation logs at most
    `MAXOPBLOCKS` distinct blocks and `begin_op` admits operations only when the log has room
    for them, `log_write` never finds the transaction too big. -/
theorem log_space_suffices {s : St P}
    (hrun : ReflTransGen (RoomyStep LOGSIZE) (init P) s) (p : P) : s.pc p ≠ .panicked .tooBig := by
  have hinv : Ctl s ∧ Data s ∧ Space LOGSIZE s := by
    refine run_inv (I := fun s => Ctl s ∧ Data s ∧ Space LOGSIZE s)
      ⟨ctl_init, data_init, space_init (by decide)⟩ ?_ hrun
    rintro s1 s2 ⟨h1, h2, h3⟩ ⟨q, a, hs, hcall, hroom⟩
    have he := step_effect hs
    exact ⟨step_ctl h1 hs, step_data h1 h2 hs, room_effect h1 h2 h3 hroom he, bound_effect h3 hcall he,
      calm_effect (le_refl _) h3 he⟩
  exact hinv.2.2.calm p

end Space

/-- The call of `log_write` that `p` makes keeps to the reservation. -/
def withinReservation (s : St P) (p : P) : Act → Bool
  | .log b => decide ((absorb (s.mine p) b).length ≤ MAXOPBLOCKS)
  | _ => true

/-- `begin_op` does not let `p` in, or has the room for it. -/
def withinRoom [Fintype P] (size : Nat) (s : St P) (p : P) : Bool :=
  decide (s.pc p = .beginTest → s.committing = false → ¬ Full s → room s + MAXOPBLOCKS + 2 ≤ size)

/-- Run a list of steps, each of which passes a test. -/
def runIf (size : Nat) (ok : St P → P → Act → Bool) : List (P × Act) → St P → Option (St P)
  | [], s => some s
  | (p, a) :: l, s => if ok s p a then (step size p a s).bind (runIf size ok l) else none

theorem runIf_trans {size : Nat} {ok : St P → P → Act → Bool} {R : St P → St P → Prop}
    (hR : ∀ {s s' p a}, ok s p a = true → step size p a s = some s' → R s s') {l : List (P × Act)} {s s' : St P}
    (h : runIf size ok l s = some s') : ReflTransGen R s s' :=
  run_of_tests (R := R) (f := fun x => step size x.1 x.2) (fun _ => rfl)
    (fun _ _ _ => rfl) (fun _ _ _ hok h => hR hok h) h

theorem withinReservation_log {s : St P} {p : P} {a : Act} (h : withinReservation s p a = true) :
    ∀ b, a = .log b → (absorb (s.mine p) b).length ≤ MAXOPBLOCKS := by
  rintro b rfl
  exact of_decide_eq_true h

/-- One `begin_op`, from outside the log into the operation. -/
def beginActs (p : Fin 3) : List (Fin 3 × Act) := replicate 4 (p, .go)

/-- One `log_write` of block `b`. -/
def logActs (p : Fin 3) (b : Nat) : List (Fin 3 × Act) := (p, .log b) :: replicate 7 (p, .go)

/-- Two operations that overlap and log ten blocks each. -/
def twoOps : List (Fin 3 × Act) :=
  beginActs 0 ++ beginActs 1 ++
  (range 10).flatMap (fun i => logActs 0 (100 + i)) ++
  (range 10).flatMap (fun i => logActs 1 (200 + i))

/-- Two full operations have the room they need. -/
theorem two_ops_fit : ∃ s : St (Fin 3), ReflTransGen (RoomyStep LOGSIZE) (init (Fin 3)) s ∧
    s.lh.length = 20 ∧ s.pc 1 ≠ .panicked .tooBig := by
  have hrun : ((runIf LOGSIZE (fun s p a => withinReservation s p a && withinRoom LOGSIZE s p)
      twoOps (init (Fin 3))).map fun s => s.lh.length) = some 20 := by decide +kernel
  obtain ⟨s, hs, hlen⟩ := map_eq_some_iff.mp hrun
  have hreach : ReflTransGen (RoomyStep LOGSIZE) (init (Fin 3)) s := by
    refine runIf_trans ?_ hs
    intro s s' p a hok hstep
    obtain ⟨h1, h2⟩ := (Bool.and_eq_true _ _).mp hok
    exact ⟨p, a, hstep, withinReservation_log h1, of_decide_eq_true h2⟩
  exact ⟨s, hreach, hlen, log_space_suffices hreach 1⟩

/-- Three operations that overlap; the first two log ten blocks each, the third nine and then
    calls `log_write` on its tenth. -/
def threeOps : List (Fin 3 × Act) :=
  beginActs 0 ++ beginActs 1 ++ beginActs 2 ++
  (range 10).flatMap (fun i => logActs 0 (100 + i)) ++
  (range 10).flatMap (fun i => logActs 1 (200 + i)) ++
  (range 9).flatMap (fun i => logActs 2 (300 + i)) ++
  [(2, .log 309), (2, .go), (2, .go)]

/-- **The reservation of `begin_op` is not enough.** Three operations, each of which logs at
    most `MAXOPBLOCKS` blocks, overlap; `begin_op` lets all three in, and the last
    `log_write` panics. -/
theorem three_ops_too_big : ∃ s : St (Fin 3), ReflTransGen (BoundedStep LOGSIZE) (init (Fin 3)) s ∧
    s.pc 2 = .panicked .tooBig := by
  have hrun : ((runIf LOGSIZE withinReservation threeOps (init (Fin 3))).map fun s => s.pc 2)
      = some (.panicked .tooBig) := by decide +kernel
  obtain ⟨s, hs, heq⟩ := map_eq_some_iff.mp hrun
  have hreach : ReflTransGen (BoundedStep LOGSIZE) (init (Fin 3)) s :=
    runIf_trans (fun {_ _ p a} hok hstep => ⟨p, a, hstep, withinReservation_log hok⟩) hs
  exact ⟨s, hreach, heq⟩

end Xv6Group
