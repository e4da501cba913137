import Mathlib.Data.List.Range

/-!
# `mp.c` — the multiprocessor configuration table

The table comes from the firmware: a header of 44 bytes and entries whose size depends on a type byte.
`mpconfig` checks signature, version and checksum; the loop of `mpinit` goes through the entries. Addresses
are offsets from the start of the table, and `tab` gives every byte from there on, those behind the table too.
The state keeps a record of the bytes that the loop has read and of the elements of `cpus` it has stored to.

An entry of an unknown type is not passed over, and nothing compares `ncpu` with `NCPU`.
-/

namespace Xv6Mp

open List

variable (tab : Nat → UInt8)

/-- Size of `cpus`. -/
def NCPU : Nat := 8

def MPPROC : UInt8 := 0

def MPBUS : UInt8 := 1

def MPIOAPIC : UInt8 := 2

def MPIOINTR : UInt8 := 3

def MPLINTR : UInt8 := 4

/-- `conf->length`, an unsigned short. -/
def length : Nat :=
  (tab 4).toNat + 256 * (tab 5).toNat

/-- `sum` of the first bytes. -/
def sum (len : Nat) : UInt8 :=
  (range len).foldl (fun s i => s + tab i) 0

/-- `mpconfig` accepts the table: signature `PCMP`, version 1 or 4, checksum. -/
def mpconfig : Bool :=
  (range 4).map tab == [80, 67, 77, 80] && (tab 6 == 1 || tab 6 == 4) && sum tab (length tab) == 0

/-- The variables of `mpinit`; `bcpu` is an index of `cpus`. -/
structure St where
  p : Nat
  ncpu : Nat
  ismp : Bool
  bcpu : Nat
  ioapicid : UInt8
  /-- `cpus[i].id` -/
  id : Nat → UInt8
  /-- bytes of the table that have been read -/
  reads : List Nat
  /-- elements of `cpus` that have been stored to -/
  writes : List Nat

/-- By how much `p` moves over an entry of a type. The default case does not move it. -/
def advance (type : UInt8) : Nat :=
  if type = MPPROC then 20
  else if type = MPBUS ∨ type = MPIOAPIC ∨ type = MPIOINTR ∨ type = MPLINTR then 8
  else 0

/-- The body of the loop. -/
def turn (s : St) : St :=
  let p := s.p + advance (tab s.p)
  if tab s.p = MPPROC then
    { p := p
      ncpu := s.ncpu + 1
      ismp := s.ismp && s.ncpu == (tab (s.p + 1)).toNat
      bcpu := if tab (s.p + 3) &&& 2 ≠ 0 then s.ncpu else s.bcpu
      ioapicid := s.ioapicid
      id := fun i => if i = s.ncpu then UInt8.ofNat s.ncpu else s.id i
      reads := s.reads ++ [s.p, s.p + 1, s.p + 3]
      writes := s.writes ++ [s.ncpu] }
  else if tab s.p = MPIOAPIC then
    { s with p := p, ioapicid := tab (s.p + 1), reads := s.reads ++ [s.p, s.p + 1] }
  else if advance (tab s.p) = 0 then
    { s with ismp := false, reads := s.reads ++ [s.p] }
  else { s with p := p, reads := s.reads ++ [s.p] }

/-- The state before the loop: `conf + 1` is behind the header. -/
def start : St :=
  ⟨44, 0, true, 0, 0, fun _ => 0, [], []⟩

/-- `for(...; p<e; )`, after so many rounds. -/
def rounds (n : Nat) : St :=
  (fun s => if s.p < length tab then turn tab s else s)^[n] start

/-- `mpinit`, if so many rounds are enough. -/
def mpinit (n : Nat) : Option St :=
  if mpconfig tab = false then some { start with ismp := false }
  else if (rounds tab n).p < length tab then none
  else if (rounds tab n).ismp then some (rounds tab n)
  else some { rounds tab n with ncpu := 1, ioapicid := 0 }

/-! ## The entries -/

/-- Where entry `k` starts. -/
def entryAt (k : Nat) : Nat :=
  (fun p => p + advance (tab p))^[k] 44

/-- Entry `k` lies in the table and describes a processor. -/
def isProc (k : Nat) : Bool :=
  decide (entryAt tab k < length tab) && tab (entryAt tab k) == MPPROC

/-- The number of processors among the first `n` entries. -/
def processors (n : Nat) : Nat :=
  (range n).countP (isProc tab)

variable {tab}

theorem entryAt_succ (k : Nat) : entryAt tab (k + 1) = entryAt tab k + advance (tab (entryAt tab k)) := by
  rw [entryAt, Function.iterate_succ_apply', ← entryAt]

theorem processors_succ (n : Nat) : processors tab (n + 1) = processors tab n + if isProc tab n then 1 else 0 := by
  rw [processors, range_succ, countP_append, countP_singleton, ← processors]

theorem entryAt_mono {k m : Nat} (h : k ≤ m) : entryAt tab k ≤ entryAt tab m := by
  induction h with
  | refl => exact le_refl _
  | step _ ih =>
    rw [entryAt_succ]
    exact Nat.le_add_right_of_le ih

/-- Nothing comes after an entry of an unknown type. -/
theorem entryAt_stuck {k m : Nat} (hk : advance (tab (entryAt tab k)) = 0) (h : k ≤ m) :
    entryAt tab m = entryAt tab k := by
  induction h with
  | refl => rfl
  | step _ ih => rw [entryAt_succ, ih, hk, Nat.add_zero]

/-- Known entries move the loop on. -/
theorem entryAt_grows (h : ∀ k, entryAt tab k < length tab → advance (tab (entryAt tab k)) ≠ 0) (n : Nat) :
    length tab ≤ entryAt tab n ∨ n ≤ entryAt tab n := by
  induction n with
  | zero => exact .inr (Nat.zero_le _)
  | succ n ih =>
    rw [entryAt_succ]
    by_cases hn : entryAt tab n < length tab
    · have := h n hn
      omega
    · omega

/-! ## The loop goes through the entries -/

/-- What holds after `n` rounds. -/
structure Passed (tab : Nat → UInt8) (n : Nat) (s : St) : Prop where
  here : entryAt tab n < length tab → s.p = entryAt tab n
  past : length tab ≤ entryAt tab n → length tab ≤ s.p
  ncpu : s.ncpu = processors tab n
  writes : s.writes = range (processors tab n)
  reads : ∀ a ∈ s.reads, a < length tab + 20

theorem turn_p (s : St) : (turn tab s).p = s.p + advance (tab s.p) := by
  rw [turn]
  split
  · rfl
  · split
    · rfl
    · split
      · next h => rw [h, Nat.add_zero]
      · rfl

theorem turn_reads {s : St} (hp : s.p < length tab) {a : Nat} (ha : a ∈ (turn tab s).reads) :
    a ∈ s.reads ∨ a < length tab + 20 := by
  have hread : ∀ l : List Nat, a ∈ s.reads ++ l → (∀ b ∈ l, b ≤ s.p + 3) → a ∈ s.reads ∨ a < length tab + 20 := by
    intro l hl hb
    rcases mem_append.mp hl with h | h
    · exact .inl h
    · exact .inr (by have := hb a h; omega)
  rw [turn] at ha
  split at ha
  · exact hread _ ha (by simp)
  · split at ha
    · exact hread _ ha (by simp)
    · split at ha <;> exact hread _ ha (by simp)

/-- Only an entry of a processor is counted and stored. -/
theorem turn_cpus (s : St) : (turn tab s).ncpu = s.ncpu + (if tab s.p = MPPROC then 1 else 0) ∧
      (turn tab s).writes = s.writes ++ if tab s.p = MPPROC then [s.ncpu] else [] := by
  rw [turn]
  split
  · exact ⟨rfl, rfl⟩
  · split
    · exact ⟨rfl, (append_nil _).symm⟩
    · split <;> exact ⟨rfl, (append_nil _).symm⟩

theorem passed (n : Nat) : Passed tab n (rounds tab n) := by
  induction n with
  | zero => exact ⟨fun _ => rfl, id, rfl, rfl, nofun⟩
  | succ n ih =>
    rw [rounds, Function.iterate_succ_apply', ← rounds]
    generalize rounds tab n = s at ih
    by_cases hn : entryAt tab n < length tab
    · -- the round reads entry `n`
      have hp := ih.here hn
      have hnext : (turn tab s).p = entryAt tab (n + 1) := by rw [turn_p, hp, entryAt_succ]
      have hproc : isProc tab n = decide (tab s.p = MPPROC) := by
        rw [isProc, decide_eq_true hn, Bool.true_and, hp]
        rfl
      obtain ⟨hcpu, hwrites⟩ := @turn_cpus tab s
      rw [if_pos (hp ▸ hn)]
      refine ⟨fun _ => hnext, fun h => hnext ▸ h, ?_, ?_, fun a ha => ?_⟩
      · rw [hcpu, processors_succ, hproc, ih.ncpu]
        simp only [decide_eq_true_eq]
      · rw [hwrites, processors_succ, hproc, ih.writes, ih.ncpu]
        split
        · next h =>
          rw [decide_eq_true h, if_pos rfl, range_succ]
        · next h =>
          rw [decide_eq_false h, if_neg Bool.false_ne_true, append_nil, Nat.add_zero]
      · exact (turn_reads (hp ▸ hn) ha).elim (ih.reads a) id
    · -- the loop is over
      have hlast := ih.past (by omega)
      have hproc : isProc tab n = false := by rw [isProc, decide_eq_false hn, Bool.false_and]
      have hle : entryAt tab n ≤ entryAt tab (n + 1) := entryAt_mono (Nat.le_succ n)
      rw [if_neg (by omega)]
      refine ⟨fun h => absurd h (by omega), fun _ => hlast, ?_, ?_, ih.reads⟩
      · rw [processors_succ, hproc, ih.ncpu]
        rfl
      · rw [processors_succ, hproc, ih.writes]
        rfl

/-- `mpinit` returns, has read at most one entry past the table and has stored to elements of `cpus` only, if and
    only if every entry has a known type and no more than `NCPU` of them are processors. -/
theorem mpinit_bounded_iff (h : mpconfig tab = true) :
    ((∃ n, (mpinit tab n).isSome) ∧ ∀ n, (∀ a ∈ (rounds tab n).reads, a < length tab + 20) ∧
        ∀ i ∈ (rounds tab n).writes, i < NCPU) ↔
      (∀ k, entryAt tab k < length tab → advance (tab (entryAt tab k)) ≠ 0) ∧ ∀ n, processors tab n ≤ NCPU := by
  have hsome : ∀ n, (mpinit tab n).isSome ↔ length tab ≤ (rounds tab n).p := by
    intro n
    rw [mpinit, if_neg (by rw [h]; exact Bool.true_eq_false.mp)]
    split
    · next hp => simpa using hp
    · next hp => exact iff_of_true (by split <;> rfl) (by omega)
  constructor
  · rintro ⟨⟨n, hn⟩, hsafe⟩
    refine ⟨fun k hk h0 => ?_, fun m => ?_⟩
    · -- the loop stays at entry `k`, so it cannot have ended
      have hover : length tab ≤ entryAt tab n := by
        by_contra hlt
        have := (@passed tab n).here (by omega)
        have := (hsome n).mp hn
        omega
      rcases le_total k n with hkn | hkn
      · rw [entryAt_stuck h0 hkn] at hover
        omega
      · exact absurd hk (not_lt.mpr (hover.trans (entryAt_mono hkn)))
    · by_contra hlt
      have hmem : NCPU ∈ (rounds tab m).writes := by
        rw [(passed m).writes]
        exact mem_range.mpr (by omega)
      exact absurd ((hsafe m).2 _ hmem) (lt_irrefl _)
  · rintro ⟨hknown, hproc⟩
    refine ⟨⟨length tab, (hsome _).mpr ((passed _).past ?_)⟩, fun n => ⟨(passed n).reads, fun i hi => ?_⟩⟩
    · exact (entryAt_grows hknown _).elim id id
    · rw [(passed n).writes, mem_range] at hi
      exact lt_of_lt_of_le hi (hproc n)

/-- A table of less than 256 bytes with the given checksum byte and entries. -/
def table (chk : UInt8) (entries : List UInt8) (i : Nat) : UInt8 :=
  ([80, 67, 77, 80, UInt8.ofNat (44 + entries.length), 0, 4, chk] ++ replicate 36 0 ++ entries).getD i 0

/-- A processor, a bus, an I/O APIC and an interrupt entry. -/
def fourEntries : Nat → UInt8 :=
  table 110 (replicate 20 MPPROC ++ MPBUS :: replicate 7 0 ++ MPIOAPIC :: replicate 7 0 ++ MPIOINTR :: replicate 7 0)

/-- On these four entries `mpinit` returns, reads less than an entry past the table and stores
    to elements of `cpus` only. -/
theorem mpinit_bounded_four : (∃ n, (mpinit fourEntries n).isSome) ∧ ∀ n,
    (∀ a ∈ (rounds fourEntries n).reads, a < length fourEntries + 20) ∧ ∀ i ∈ (rounds fourEntries n).writes, i < NCPU := by
  have hend : ∀ k, ¬ entryAt fourEntries (k + 4) < length fourEntries :=
    fun k => Nat.not_lt.mpr (Nat.le_trans (by decide +kernel) (entryAt_mono (Nat.le_add_left 4 k)))
  refine (mpinit_bounded_iff (by decide +kernel)).mpr ⟨fun k hk => ?_, fun n => ?_⟩
  · match k with
    | 0 | 1 | 2 | 3 => decide +kernel
    | k + 4 => exact absurd hk (hend k)
  · -- only the first entry is a processor
    have hproc : ∀ k, isProc fourEntries (k + 1) = false := by
      intro k
      match k with
      | 0 | 1 | 2 => decide +kernel
      | k + 3 => rw [isProc, decide_eq_false (hend k), Bool.false_and]
    have hone : ∀ k, processors fourEntries (k + 1) = 1 := by
      intro k
      induction k with
      | zero => decide +kernel
      | succ k ih =>
        rw [processors_succ, ih, hproc]
        rfl
    cases n with
    | zero => exact Nat.zero_le _
    | succ k =>
      rw [hone]
      decide

/-- An accepted table with one entry of type 5, on which the loop never ends, and one with nine processors, on
    which it stores to `cpus[8]`. -/
theorem mpinit_not_bounded : (mpconfig (table 154 [5]) = true ∧ ∀ n, mpinit (table 154 [5]) n = none) ∧
      mpconfig (table 236 (replicate 180 0)) = true ∧ NCPU ∈ (rounds (table 236 (replicate 180 0)) 9).writes := by
  refine ⟨⟨by decide +kernel, fun n => ?_⟩, by decide +kernel, by decide +kernel⟩
  have hstuck : entryAt (table 154 [5]) n = 44 := entryAt_stuck (k := 0) (by decide +kernel) (Nat.zero_le n)
  have hin : entryAt (table 154 [5]) n < length (table 154 [5]) := by
    rw [hstuck]
    decide +kernel
  have hp : (rounds (table 154 [5]) n).p < length (table 154 [5]) := by rwa [(passed n).here hin]
  rw [mpinit, if_neg (by decide +kernel), if_pos hp]

end Xv6Mp
