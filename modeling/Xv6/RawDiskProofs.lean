import Xv6.BcacheCoherenceProofs

/-!
# `ide.c` — raw disks beside the file system

`ideread` and `idewrite` go through the buffer cache, with the minor number of the device inode as the
device: `ideread` is `bread` and `brelse` for each block, and `idewrite` is `bread`, a store, `bwrite`
and `brelse`. The minor number is what `mknod` was given, and `bget` compares all of it, where the
controller looks at its last bit only.

Recorded beside the state of the cache is the data last stored to each block of a drive, through
whatever buffer.
-/

namespace Xv6Bcache

open Interleave Xv6Disk Function Option List

variable {P α : Type} [DecidableEq P] {s s' : St P α}

/-- `bread(ip->minor, ..)`: a `short` becomes a `uint`. -/
def ideDev (minor : Int16) : UInt32 := minor.toInt32.toUInt32

/-- A step of a process: one of the file system's calls, or `bread` in `ideread` or `idewrite`. -/
inductive Call (α : Type) where
  | fs (a : Act α)
  | raw (minor : Int16) (blockno : UInt32)

structure Raw (P α : Type) where
  st : St P α
  latest : Key → α

def rawInit (P : Type) (disk : Key → α) (data : B → α) (havedisk1 : Bool) : Raw P α :=
  ⟨init P disk data havedisk1, fun k => disk (drive k)⟩

/-- What a step stores to a block of a drive. -/
def stored (s : St P α) (a : Act α) (latest : Key → α) : Key → α :=
  match a with
  | .store b v => update latest (drive (s.buf b).key) v
  | _ => latest

def rawStep (p : P) (r : Raw P α) : Call α → Option (Raw P α)
  | .fs a => (step p a r.st).map fun s => ⟨s, stored r.st a r.latest⟩
  | .raw minor blockno =>
    if r.st.pc p = .out then some ⟨r.st.to p (.gAcq (ideDev minor, blockno)), r.latest⟩ else none

def rawIntr (r : Raw P α) : Option (Raw P α) := (intr r.st).map fun s => ⟨s, r.latest⟩

/-- The raw disks in use are those with a minor number that `ok` allows. -/
def Call.ok (ok : Int16 → Bool) : Call α → Bool
  | .fs _ => true
  | .raw minor _ => ok minor

def RawStep (ok : Int16 → Bool) (r r' : Raw P α) : Prop :=
  rawIntr r = some r' ∨ ∃ p c, Call.ok ok c = true ∧ rawStep p r c = some r'

def RawReach (ok : Int16 → Bool) (r : Raw P α) : Prop :=
  ∃ disk data havedisk1, Relation.ReflTransGen (RawStep ok) (rawInit P disk data havedisk1) r

/-! ## Minor numbers that name a drive -/

/-- The two drives. -/
def twoDrives (minor : Int16) : Bool := minor == 0 || minor == 1

theorem twoDrives_inUse {minor : Int16} (h : twoDrives minor = true) : inUse (ideDev minor) := by
  rcases Bool.or_eq_true_iff.mp h with h | h
  · rw [eq_of_beq h]; exact .inl (by decide)
  · rw [eq_of_beq h]; exact .inr (by decide)

/-- A buffer is for no block, as `binit` left it, or for one of a device in use. -/
def BoundOk (s : St P α) : Prop := ∀ b, (s.buf b).key.1 = -1 ∨ inUse (s.buf b).key.1

/-- A step keeps the block of a buffer, or gives it to the block that the process asked for. -/
theorem effect_key {p : P} (he : Effect p s s') (b : B) :
    (s'.buf b).key = (s.buf b).key ∨ (s.pc p).want = some (s'.buf b).key := by
  cases he with
  | move _ | relink _ | append _ _ => exact .inl rfl
  | @take k c _ _ _ => exact .inl (key_setBuf (x := { s.buf c with busy := true }) rfl b)
  | @recycle k c x hpc hb hd =>
    by_cases hbc : b = c
    · subst hbc
      right
      rw [hpc]
      show some k = some (update s.buf b _ b).key
      rw [update_self]
      rfl
    · exact .inl (congrArg Buf.key (setBuf_ne hbc))
  | @drop c _ => exact .inl (key_setBuf (x := { s.buf c with busy := false }) rfl b)
  | write _ _ hkey _ _ _ _ _ _ _ => exact .inl (key_setBuf hkey b)

/-- The invariant of the cache, and that what is recorded for a block of a drive is what is recorded
    for its device. -/
structure RawInv (r : Raw P α) : Prop where
  cache : Inv r.st
  bound : BoundOk r.st
  latest : ∀ k : Key, inUse k.1 → r.latest k = r.st.last k

theorem step_store {p : P} {b : B} {v : α} (hs : step p (.store b v) s = some s') :
    s.held p b = true ∧ s'.last = update s.last (s.buf b).key v := by
  unfold step at hs
  split at hs
  case h_2 c w hpc ha =>
    obtain ⟨rfl, rfl⟩ := Act.store.inj ha
    split_ifs at hs with hb
    cases hs
    exact ⟨hb, rfl⟩
  case h_23 => cases hs
  all_goals rename_i ha; cases ha

/-- Only a store changes what is recorded for a block. -/
theorem step_last {p : P} {a : Act α} (hs : step p a s = some s') (ha : ∀ b v, a ≠ .store b v) : s'.last = s.last := by
  unfold step at hs
  split at hs
  case h_2 => exact absurd rfl (ha _ _)
  case h_15 =>
    split at hs
    · obtain ⟨d, -, rfl⟩ := map_eq_some_iff.mp hs; rfl
    · cases hs; rfl
  case h_6 | h_19 => obtain ⟨-, rfl⟩ := acquire_some hs; rfl
  case h_14 | h_17 => obtain ⟨-, rfl⟩ := acquireIde_some hs; rfl
  all_goals
    repeat' split at hs
    all_goals cases hs <;> rfl

/-- A store is to a buffer that the process holds, and so to a device in use. -/
theorem stored_last {p : P} {a : Act α} {latest : Key → α} (h : Inv s)
    (hl : ∀ k : Key, inUse k.1 → latest k = s.last k) (hs : step p a s = some s') {k : Key}
    (hk : inUse k.1) : stored s a latest k = s'.last k := by
  cases a with
  | store b v =>
    obtain ⟨hb, hlast⟩ := step_store hs
    rw [hlast, stored, drive_inUse (h.holds.use p b hb)]
    by_cases hkb : k = (s.buf b).key
    · rw [hkb, update_self, update_self]
    · rw [update_of_ne hkb, update_of_ne hkb]
      exact hl k hk
  | _ => rw [step_last hs nofun]; exact hl k hk

theorem intr_last (h : Inv s) (hs : intr s = some s') : s'.last = s.last := by
  rcases intr_some h hs with ⟨-, -, rfl⟩ | ⟨-, rfl⟩ | ⟨-, rfl⟩ | ⟨c, q, disk, -, -, -, rfl⟩ <;> rfl

/-- A `bread` of a raw disk in use is one that the file system could have called. -/
theorem raw_bread {s : St P α} {p : P} {minor : Int16} {blockno : UInt32} (hpc : s.pc p = .out)
    (hm : twoDrives minor = true) : step p (.bread (ideDev minor, blockno)) s =
      some (s.to p (.gAcq (ideDev minor, blockno))) := by
  unfold step
  rw [hpc]
  exact if_pos (twoDrives_inUse hm)

/-- **A step with raw disks of the two drives only** keeps the invariant. -/
theorem rawStep_inv {r r' : Raw P α} (h : RawInv r) (hs : RawStep twoDrives r r') : RawInv r' := by
  -- a step of the cache, whatever it records
  have keep : ∀ {p : P} {a : Act α} {s' : St P α} {latest : Key → α}, step p a r.st = some s' →
      (∀ k : Key, inUse k.1 → latest k = s'.last k) → RawInv ⟨s', latest⟩ := by
    intro p a s' latest hstep hlatest
    have he := step_effect h.cache hstep
    refine ⟨effect_inv h.cache he, fun b => ?_, hlatest⟩
    rcases effect_key he b with hk | hk
    · rw [hk]
      exact h.bound b
    · exact .inr (h.cache.keys.want p _ hk)
  rcases hs with hs | ⟨p, c, hok, hs⟩
  · obtain ⟨s', hstep, rfl⟩ := map_eq_some_iff.mp hs
    refine ⟨intr_inv h.cache hstep, fun b => ?_, fun k hk => ?_⟩
    · rw [intr_keeps h.cache hstep b]
      exact h.bound b
    · rw [intr_last h.cache hstep]
      exact h.latest k hk
  · cases c with
    | fs a =>
      obtain ⟨s', hstep, rfl⟩ := map_eq_some_iff.mp hs
      exact keep hstep fun k hk => stored_last h.cache h.latest hstep hk
    | raw minor blockno =>
      rw [rawStep] at hs
      split_ifs at hs with hpc
      cases hs
      exact keep (raw_bread hpc hok) h.latest

theorem rawReach_inv {r : Raw P α} (h : RawReach twoDrives r) : RawInv r := by
  obtain ⟨disk, data, havedisk1, hrun⟩ := h
  refine run_inv ?_ (fun _ _ => rawStep_inv) hrun
  exact ⟨inv_init disk data havedisk1, fun _ => .inl rfl, fun _ _ => rfl⟩

/-- **One buffer for each block of a drive**, in every run in which the raw disks have minor numbers 0
    and 1: and a `bread`, of the file system or of a raw disk, returns the data last stored to the block. -/
theorem one_copy_of_block {r : Raw P α} (h : RawReach twoDrives r) :
    (∀ b b', (r.st.buf b).dev ≠ -1 → (r.st.buf b').dev ≠ -1 →
      drive (r.st.buf b).key = drive (r.st.buf b').key → b = b') ∧
      ∀ p k b, r.st.pc p = .rRet k b → (r.st.buf b).key = k ∧ (r.st.buf b).data = r.latest (drive k) := by
  have hi := rawReach_inv h
  refine ⟨fun b b' hb hb' hk => ?_, fun p k b hp => ?_⟩
  · have hu : inUse (r.st.buf b).key.1 := (hi.bound b).resolve_left hb
    have hu' : inUse (r.st.buf b').key.1 := (hi.bound b').resolve_left hb'
    rw [drive_inUse hu, drive_inUse hu'] at hk
    exact hi.cache.keys.uniq b b' hu hk
  · have hwant : (r.st.pc p).want = some k := by rw [hp]; rfl
    have hcur : (r.st.pc p).cur = some b := by rw [hp]; rfl
    have hkey := hi.cache.keys.got p k b hwant hcur
    have hk := hi.cache.keys.want p k hwant
    have hvalid : (r.st.buf b).valid = true := by
      rcases hi.cache.data.ready p b (hi.cache.holds.cur p b hcur) with hl | hv
      · rw [hp] at hl; cases hl
      · exact hv
    refine ⟨hkey, ?_⟩
    rw [(hi.cache.data.value b hvalid).2, hkey, drive_inUse hk, hi.latest k hk]

/-! ## Runs -/

/-- Run a list of steps; `none` is a step of the interrupt handler. -/
def runRaw : List (Option (P × Call α)) → Raw P α → Option (Raw P α)
  | [], r => some r
  | none :: l, r => (rawIntr r).bind (runRaw l)
  | some x :: l, r => (rawStep x.1 r x.2).bind (runRaw l)

theorem runRaw_trans {ok : Int16 → Bool} : ∀ {l : List (Option (P × Call α))} {r r' : Raw P α},
    (∀ x ∈ l, ∀ y, x = some y → Call.ok ok y.2 = true) → runRaw l r = some r' →
      Relation.ReflTransGen (RawStep ok) r r' := by
  intro l
  induction l with
  | nil =>
    intro r r' _ h
    cases h
    exact .refl
  | cons x l ih =>
    intro r r' hok h
    have hl := fun y hy => hok y (mem_cons_of_mem x hy)
    cases x with
    | none =>
      obtain ⟨r1, h1, h2⟩ := bind_eq_some_iff.mp h
      exact .head (.inl h1) (ih hl h2)
    | some x =>
      obtain ⟨r1, h1, h2⟩ := bind_eq_some_iff.mp h
      exact .head (.inr ⟨x.1, x.2, hok (some x) mem_cons_self x rfl, h1⟩) (ih hl h2)

instance : NeZero NBUF := ⟨by decide⟩

/-- `n` steps of process `p` without a choice. -/
def goes (p : Fin 2) (n : Nat) : List (Option (Fin 2 × Call Nat)) := replicate n (some (p, .fs .go))

/-- A block that is in no buffer is read. -/
def readIn (p : Fin 2) (c : Call Nat) : List (Option (Fin 2 × Call Nat)) :=
  some (p, c) :: goes p 39 ++ replicate 3 none ++ goes p 4

def release (p : Fin 2) (b : B) : List (Option (Fin 2 × Call Nat)) :=
  some (p, .fs (.brelse b)) :: goes p 4

/-- Process 0 stores 42 into a buffer and writes it. -/
def writeOut (b : B) : List (Option (Fin 2 × Call Nat)) :=
  [some (0, .fs (.store b 42)), some (0, .fs (.bwrite b))] ++ goes 0 4 ++ replicate 3 none ++ goes 0 3

/-- The drives hold 0. -/
def zeros : Raw (Fin 2) Nat := rawInit (Fin 2) (fun _ => 0) (fun _ => 0) true

/-- Block 7 of device 1 is read and written by process 0, and read through the raw disk 1 by process 1. -/
theorem one_copy_of_block_reread : ∃ (r : Raw (Fin 2) Nat) (b : B), RawReach twoDrives r ∧
    r.st.pc 1 = .rRet (1, 7) b ∧ r.latest (1, 7) = 42 ∧ (r.st.buf b).data = r.latest (drive (1, 7)) := by
  let l := readIn 0 (.fs (.bread (1, 7))) ++ writeOut 0 ++ release 0 0 ++ some (1, .raw 1 7) :: goes 1 4
  have hdata : (runRaw l zeros).map (fun r => (r.st.pc 1, r.latest (1, 7))) = some (.rRet (1, 7) 0, 42) := by
    decide +kernel
  obtain ⟨r, hs, heq⟩ := map_eq_some_iff.mp hdata
  obtain ⟨hpc, hl⟩ : r.st.pc 1 = .rRet (1, 7) 0 ∧ r.latest (1, 7) = 42 := by
    simpa only [Prod.mk.injEq] using heq
  have hr : RawReach twoDrives r := ⟨_, _, _, runRaw_trans (by decide +kernel) hs⟩
  exact ⟨r, 0, hr, hpc, hl, ((one_copy_of_block hr).2 1 (1, 7) 0 hpc).2⟩

/-- **Two buffers for one block.** Process 1 reads block 7 through a raw disk with minor number 3, process 0
    writes 42 to block 7 of device 1, which is the same block of the same drive, and process 1 reads again: it
    gets what was there before. -/
theorem minor_three_stale : ∃ (r : Raw (Fin 2) Nat) (b b' : B), RawReach (fun _ => true) r ∧ b ≠ b' ∧
    (r.st.buf b).valid = true ∧ (r.st.buf b').valid = true ∧ (r.st.buf b).key = (1, 7) ∧
      (r.st.buf b').key = (ideDev 3, 7) ∧ drive (r.st.buf b).key = drive (r.st.buf b').key ∧
      r.st.pc 1 = .rRet (ideDev 3, 7) b' ∧ (r.st.buf b').data ≠ r.latest (drive (ideDev 3, 7)) := by
  let l := readIn 1 (.raw 3 7) ++ release 1 0 ++ readIn 0 (.fs (.bread (1, 7))) ++ writeOut 1 ++ release 0 1 ++
    some (1, .raw 3 7) :: goes 1 5
  have hdata : (runRaw l zeros).map (fun r => ((r.st.pc 1, (r.st.buf 0).data, r.latest (1, 7)),
      ((r.st.buf 1).key, (r.st.buf 0).key), (r.st.buf 1).valid, (r.st.buf 0).valid)) =
        some ((.rRet (3, 7) 0, 0, 42), ((1, 7), (3, 7)), true, true) := by
    decide +kernel
  obtain ⟨r, hs, heq⟩ := map_eq_some_iff.mp hdata
  obtain ⟨⟨hpc, hd, hl⟩, ⟨hk, hk'⟩, hv, hv'⟩ : (r.st.pc 1 = .rRet (3, 7) 0 ∧ (r.st.buf 0).data = 0 ∧
      r.latest (1, 7) = 42) ∧ ((r.st.buf 1).key = (1, 7) ∧ (r.st.buf 0).key = (3, 7)) ∧
      (r.st.buf 1).valid = true ∧ (r.st.buf 0).valid = true := by
    simpa only [Prod.mk.injEq] using heq
  refine ⟨r, 1, 0, ⟨_, _, _, runRaw_trans (by decide +kernel) hs⟩, by decide, hv, hv', hk, hk', ?_, hpc, ?_⟩
  · rw [hk, hk']; decide
  · rw [hd, show drive (ideDev 3, 7) = (1, 7) from by decide, hl]
    decide

end Xv6Bcache
