import Mathlib.Algebra.BigOperators.Group.List.Basic
import Xv6.OpenFileProofs

/-!
# Writers that share a file

Any number of processes call `filewrite` on open files of one regular file. `filewrite` cuts its
buffer into chunks; for each chunk it locks the inode, calls `writei` at the offset of the open file,
moves the offset and unlocks the inode, and between two chunks other writers may come in. A step is
what a process does between two of these points.

Recorded beside the state are the calls begun, the chunks written, each with its process,
whether some `writei` failed because the file would have become too large, and of each open file
whether it has been opened and whether its last `open` or chunk is the last write of the file.

With one open file that all of them share, every chunk gets a range of its own. With an open file for each
of them, opened with `O_APPEND`, it does not: the offset is the end of the file at the time of the `open`.
-/

set_option linter.unusedSectionVars false

namespace Xv6Writers

open Interleave Xv6Open Function List
open Xv6Sys (filewriteMax)

/-- The chunks that `filewrite` cuts a buffer into. -/
def pieces (buf : List UInt8) : List (List UInt8) :=
  if _hnil : buf = [] then [] else buf.take filewriteMax :: pieces (buf.drop filewriteMax)
termination_by buf.length
decreasing_by
  have := length_pos_iff.mpr _hnil
  have := filewriteMax_pos
  rw [length_drop]
  omega

theorem pieces_nil : pieces [] = [] := by rw [pieces, dif_pos rfl]

theorem pieces_cons {buf : List UInt8} (h : buf ≠ []) :
    pieces buf = buf.take filewriteMax :: pieces (buf.drop filewriteMax) := by rw [pieces, dif_neg h]

theorem flatten_pieces (buf : List UInt8) : (pieces buf).flatten = buf := by
  induction buf using pieces.induct with
  | case1 => rw [pieces_nil]; rfl
  | case2 buf h ih => rw [pieces_cons h, flatten_cons, ih, take_append_drop]

/-- Where a process is in `filewrite(f, buf, n)`, with the loop variable `i`; `r` is what `writei`
    returned, `none` for -1. -/
inductive Pc (F : Type) where
  | out
  | test (f : F) (buf : List UInt8) (i : Nat)
  | lock (f : F) (buf : List UInt8) (i : Nat)
  | write (f : F) (buf : List UInt8) (i : Nat)
  | advance (f : F) (buf : List UInt8) (i r : Nat)
  | unlock (f : F) (buf : List UInt8) (i : Nat) (r : Option Nat)

/-- What a process does next, where it has a choice: `open` with `O_APPEND`, or a write. -/
inductive Act (F : Type) where
  | go
  | openAppend (f : F)
  | write (f : F) (buf : List UInt8)

/-- The inode, the offsets of its open files, the processes, and what is recorded. -/
structure St (P F : Type) where
  data : List UInt8
  busy : Option P
  off : F → Nat
  pc : P → Pc F
  begun : List (P × List UInt8)
  chunks : List (P × List UInt8)
  failed : Bool
  opened : F → Bool
  fresh : F → Bool

def init (P : Type) {F : Type} (d : List UInt8) (off : F → Nat) : St P F where
  data := d
  busy := none
  off := off
  pc := fun _ => .out
  begun := []
  chunks := []
  failed := false
  opened := fun _ => false
  fresh := fun _ => false

variable {P F : Type} [DecidableEq P] [DecidableEq F]

def St.to (s : St P F) (p : P) (c : Pc F) : St P F := { s with pc := update s.pc p c }

/-- After the inode is unlocked. -/
def afterChunk (f : F) (buf : List UInt8) (i : Nat) : Option Nat → Pc F
  | some r => .test f buf (i + r)
  | none => .out

/-- One step of process `p`. -/
def step (p : P) (a : Act F) (s : St P F) : Option (St P F) :=
  match s.pc p, a with
  | .out, .openAppend f => some { s with
      off := update s.off f s.data.length
      opened := update s.opened f true
      fresh := update s.fresh f true }
  | .out, .write f buf => some { s.to p (.test f buf 0) with begun := s.begun ++ [(p, buf)] }
  | .test f buf i, .go => some (s.to p (if i < buf.length then .lock f buf i else .out))
  | .lock f buf i, .go =>
    if s.busy = none then some { s.to p (.write f buf i) with busy := some p } else none
  | .write f buf i, .go =>
    match writei s.data (s.off f) ((buf.drop i).take filewriteMax) with
    | some d => some { s.to p (.advance f buf i ((buf.drop i).take filewriteMax).length) with
        data := d
        chunks := s.chunks ++ [(p, (buf.drop i).take filewriteMax)]
        fresh := fun g => decide (g = f) && s.fresh g }
    | none => some { s.to p (.unlock f buf i none) with failed := true }
  | .advance f buf i r, .go =>
    some { s.to p (.unlock f buf i (some r)) with off := update s.off f (s.off f + r) }
  | .unlock f buf i r, .go => some { s.to p (afterChunk f buf i r) with busy := none }
  | _, _ => none

/-- Some process takes a step that `ok` allows. -/
def Step (ok : P → Act F → St P F → Bool) (s s' : St P F) : Prop :=
  ∃ p a, ok p a s = true ∧ step p a s = some s'

/-- The process holds the inode. -/
@[simp] def Pc.holds : Pc F → Bool
  | .write _ _ _ | .advance _ _ _ _ | .unlock _ _ _ _ => true
  | _ => false

/-- The open file of the call. -/
@[simp] def Pc.file : Pc F → Option F
  | .out => none
  | .test f _ _ | .lock f _ _ | .write f _ _ | .advance f _ _ _ | .unlock f _ _ _ => some f

/-- The bytes written that the offset does not count yet. -/
@[simp] def Pc.lag : Pc F → Nat
  | .advance _ _ _ r => r
  | _ => 0

/-- The chunks of the call that are still to be written. -/
@[simp] def Pc.rest : Pc F → List (List UInt8)
  | .out => []
  | .test _ buf i | .lock _ buf i | .write _ buf i | .unlock _ buf i none => pieces (buf.drop i)
  | .advance _ buf i r | .unlock _ buf i (some r) => pieces (buf.drop (i + r))

/-- Between the test of the loop and `writei` there is something left to write, and `writei` has
    not failed. -/
@[simp] def Pc.sound : Pc F → Prop
  | .lock _ buf i | .write _ buf i => i < buf.length
  | .unlock _ _ _ none => False
  | _ => True

/-- What one process wrote or is to write. -/
def partOf (p : P) (l : List (P × List UInt8)) : List (List UInt8) :=
  (l.filter fun c => c.1 = p).map (·.2)

section Part

variable {p q : P} {b : List UInt8} {l : List (P × List UInt8)}

theorem count_partOf : (partOf p l).count b = l.count (p, b) := by
  induction l with
  | nil => rfl
  | cons c l ih =>
    obtain ⟨q, e⟩ := c
    rw [partOf] at ih ⊢
    by_cases hq : q = p
    · subst hq
      rw [filter_cons_of_pos (by simp), map_cons, count_cons, count_cons, ih]
      simp [Prod.ext_iff]
    · rw [filter_cons_of_neg (by simpa using hq), ih, count_cons_of_ne]
      intro h
      exact hq (Prod.mk.inj h).1

end Part

/-- **The order of the chunks**: what each process has written, with what it still has to write, are
    the chunks of its calls, in the order of the calls. -/
structure Order (s : St P F) : Prop where
  order : ∀ p, partOf p s.chunks ++ (s.pc p).rest = (partOf p s.begun).flatMap pieces
  sound : ∀ p, (s.pc p).sound

section Order

variable {s s' : St P F} {p : P} {a : Act F}

theorem St.to_self {c : Pc F} : (s.to p c).pc p = c := update_self _ _ _

/-- A process goes on, and the others have written and begun what they had. -/
theorem Order.change (h : Order s) {c : Pc F} (hpc : s'.pc = update s.pc p c)
    (hp : partOf p s'.chunks ++ c.rest = (partOf p s'.begun).flatMap pieces) (hsound : c.sound)
    (hq : ∀ q, q ≠ p → partOf q s'.chunks = partOf q s.chunks ∧ partOf q s'.begun = partOf q s.begun) : Order s' := by
  constructor
  · intro q
    rw [hpc, update_apply]
    split_ifs with hqp
    · rw [hqp]
      exact hp
    · rw [(hq q hqp).1, (hq q hqp).2]
      exact h.order q
  · intro q
    rw [hpc, update_apply]
    split_ifs
    · exact hsound
    · exact h.sound q

/-- What it has still to write stays the same. -/
theorem Order.move (h : Order s) {c : Pc F} (hpc : s'.pc = update s.pc p c)
    (hchunks : s'.chunks = s.chunks) (hbegun : s'.begun = s.begun)
    (hrest : c.rest = (s.pc p).rest) (hsound : c.sound) : Order s' := by
  refine h.change hpc ?_ hsound fun q _ => by rw [hchunks, hbegun]; exact ⟨rfl, rfl⟩
  rw [hchunks, hbegun, hrest]
  exact h.order p

/-- When no call is in progress, the chunks written are those of the calls begun. -/
theorem Order.perm (h : Order s) (hout : ∀ p, s.pc p = .out) :
    s.chunks.Perm (s.begun.flatMap fun c => (pieces c.2).map fun b => (c.1, b)) := by
  refine perm_iff_count.mpr fun c => ?_
  obtain ⟨p, b⟩ := c
  have hp := h.order p
  rw [hout p, Pc.rest, append_nil] at hp
  have hpart : ∀ l : List (P × List UInt8),
      partOf p (l.flatMap fun c => (pieces c.2).map fun b => (c.1, b)) = (partOf p l).flatMap pieces := by
    intro l
    induction l with
    | nil => rfl
    | cons c l ih =>
      obtain ⟨q, e⟩ := c
      rw [partOf] at ih ⊢
      rw [flatMap_cons, filter_append, map_append, ih, partOf, partOf]
      by_cases hq : q = p
      · subst hq
        rw [filter_cons_of_pos (by simp), map_cons, flatMap_cons]
        congr 1
        rw [filter_eq_self.mpr (by simp), map_map]
        exact map_id _
      · rw [filter_cons_of_neg (by simpa using hq)]
        rw [filter_eq_nil_iff.mpr (by simpa using fun _ _ => hq)]
        rfl
  rw [← count_partOf, ← count_partOf, hpart, hp]

/-- The number of bytes written, when no call is in progress. -/
theorem Order.total (h : Order s) (hout : ∀ p, s.pc p = .out) :
    (s.chunks.flatMap (·.2)).length = (s.begun.map (·.2.length)).sum := by
  have hperm := (h.perm hout).map (·.2.length)
  have hlen : (s.chunks.flatMap (·.2)).length = (s.chunks.map (·.2.length)).sum := length_flatMap
  rw [hlen, hperm.sum_eq]
  induction s.begun with
  | nil => rfl
  | cons c l ih =>
    rw [flatMap_cons, map_append, sum_append, ih, map_cons, sum_cons]
    congr 1
    rw [map_map]
    have hflat := congrArg length (flatten_pieces c.2)
    rw [length_flatten] at hflat
    exact hflat

end Order

/-! ## One open file for all writers -/

/-- The bytes that the inode has and the offset does not count yet. -/
def lagOf (s : St P F) : Nat :=
  match s.busy with
  | none => 0
  | some q => (s.pc q).lag

/-- One open file, first at `off₀` in a file with the bytes `d₀`. -/
structure Shared (d₀ : List UInt8) (off₀ : Nat) (s : St P Unit) : Prop where
  lock : Owner Pc.holds s.pc s.busy
  data : s.data = overwrite d₀ off₀ (s.chunks.flatMap (·.2))
  off : s.off () + lagOf s = off₀ + (s.chunks.flatMap (·.2)).length

section Shared

variable {d₀ : List UInt8} {off₀ : Nat} {s s' : St P Unit} {p : P} {a : Act Unit}

theorem lagOf_busy (hb : s.busy = some p) : lagOf s = (s.pc p).lag := by
  rw [lagOf, hb]

/-- The process that has the inode, and the offset that it finds. -/
theorem Shared.inside (h : Shared d₀ off₀ s) (hp : (s.pc p).holds = true) :
    s.busy = some p ∧ s.off () + (s.pc p).lag = off₀ + (s.chunks.flatMap (·.2)).length := by
  have hb := (h.lock p).mp hp
  exact ⟨hb, lagOf_busy hb ▸ h.off⟩

/-- Some process goes on outside the sections of the inode. -/
theorem Shared.move (h : Shared d₀ off₀ s) {c : Pc Unit} (hpc : s'.pc = update s.pc p c)
    (hdata : s'.data = s.data) (hbusy : s'.busy = s.busy) (hoff : s'.off = s.off)
    (hchunks : s'.chunks = s.chunks) (hwas : (s.pc p).holds = false) (hc : c.holds = false) : Shared d₀ off₀ s' := by
  refine ⟨?_, by rw [hdata, hchunks]; exact h.data, ?_⟩
  · rw [hpc, hbusy]
    exact owner_same h.lock (hc.trans hwas.symm)
  · have hlag : lagOf s' = lagOf s := by
      rw [lagOf, lagOf, hbusy]
      cases hb : s.busy with
      | none => rfl
      | some q =>
        have hq : q ≠ p := by
          rintro rfl
          rw [(h.lock q).mpr hb] at hwas
          cases hwas
        show (s'.pc q).lag = (s.pc q).lag
        rw [hpc, update_of_ne hq]
    rw [hoff, hlag, hchunks]
    exact h.off

end Shared

/-- Run a list of steps that `ok` allows. -/
def runIf (ok : P → Act F → St P F → Bool) : List (P × Act F) → St P F → Option (St P F)
  | [], s => some s
  | (p, a) :: l, s => if ok p a s = true then (step p a s).bind (runIf ok l) else none

theorem runIf_trans {ok : P → Act F → St P F → Bool} {l : List (P × Act F)} {s s' : St P F}
    (h : runIf ok l s = some s') : Relation.ReflTransGen (Step ok) s s' :=
  run_of_tests (fun _ => rfl) (fun _ _ _ => rfl) (fun x _ _ hok h => ⟨x.1, x.2, hok, h⟩) h

/-- The bytes written through `f` that its offset does not count. -/
def lagOn (s : St P F) (f : F) : Nat :=
  match s.busy with
  | none => 0
  | some q => if (s.pc q).file = some f then (s.pc q).lag else 0

/-- Every chunk has been added at the end, and an open file through which the last one was written is there. -/
structure Appended (d₀ : List UInt8) (s : St P F) : Prop where
  lock : Owner Pc.holds s.pc s.busy
  data : s.data = d₀ ++ s.chunks.flatMap (·.2)
  used : ∀ p f, (s.pc p).file = some f → s.opened f = true
  atEnd : ∀ f, s.fresh f = true → s.off f + lagOn s f = s.data.length

section Append

variable {d₀ : List UInt8} {s s' : St P F} {p : P} {a : Act F} {f : F}

theorem lagOn_busy (hb : s.busy = some p) : lagOn s f = if (s.pc p).file = some f then (s.pc p).lag else 0 := by
  rw [lagOn, hb]

/-- The files of the calls in progress stay opened when a process goes on with one of them. -/
theorem Appended.used_to (h : Appended d₀ s) {c : Pc F} (hc : ∀ f, c.file = some f → s.opened f = true) (q : P) (f : F)
    (hf : (update s.pc p c q).file = some f) : s.opened f = true := by
  rw [update_apply] at hf
  split_ifs at hf
  · exact hc f hf
  · exact h.used q f hf

/-- Some process goes on outside the sections of the inode. -/
theorem Appended.move (h : Appended d₀ s) {c : Pc F} (hpc : s'.pc = update s.pc p c) (hdata : s'.data = s.data)
    (hbusy : s'.busy = s.busy) (hoff : s'.off = s.off) (hchunks : s'.chunks = s.chunks)
    (hopened : s'.opened = s.opened) (hfresh : s'.fresh = s.fresh) (hwas : (s.pc p).holds = false)
    (hc : c.holds = false) (hfile : ∀ f, c.file = some f → s.opened f = true) : Appended d₀ s' := by
  refine ⟨?_, by rw [hdata, hchunks]; exact h.data, ?_, ?_⟩
  · rw [hpc, hbusy]
    exact owner_same h.lock (hc.trans hwas.symm)
  · rw [hpc, hopened]
    exact h.used_to hfile
  · intro f hf
    have hlag : lagOn s' f = lagOn s f := by
      rw [lagOn, lagOn, hbusy]
      cases hb : s.busy with
      | none => rfl
      | some q =>
        have hq : q ≠ p := by
          rintro rfl
          rw [(h.lock q).mpr hb] at hwas
          cases hwas
        simp only [hpc, update_of_ne hq]
    rw [hlag, hoff, hdata]
    exact h.atEnd f (hfresh ▸ hf)

/-- A process that has the inode has come to `c` in its call. -/
theorem Appended.goes (h : Appended d₀ s) {c : Pc F} (hpc : s'.pc = update s.pc p c) (hb : s'.busy = some p)
    (hlock : Owner Pc.holds s'.pc s'.busy) (hdata : s'.data = d₀ ++ s'.chunks.flatMap (·.2))
    (hopened : s'.opened = s.opened) (hfile : c.file = (s.pc p).file)
    (hend : ∀ f, s'.fresh f = true → s'.off f + (if c.file = some f then c.lag else 0) = s'.data.length) :
    Appended d₀ s' := by
  refine ⟨hlock, hdata, ?_, fun f hf => ?_⟩
  · rw [hpc, hopened]
    exact h.used_to fun f hf => h.used p f (hfile ▸ hf)
  · rw [lagOn_busy hb, hpc, update_self]
    exact hend f hf

/-- The process that has the inode, and where an open file is at the end. -/
theorem Appended.inside (h : Appended d₀ s) {g : F} (hp : (s.pc p).holds = true) (hf : (s.pc p).file = some f) :
    s.busy = some p ∧ (s.fresh g = true → s.off g + (if f = g then (s.pc p).lag else 0) = s.data.length) := by
  have hb := (h.lock p).mp hp
  refine ⟨hb, fun hg => ?_⟩
  have hend := h.atEnd g hg
  rw [lagOn_busy hb, hf] at hend
  simpa only [Option.some.injEq] using hend

end Append

end Xv6Writers
