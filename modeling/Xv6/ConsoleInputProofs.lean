import Xv6.RingBufferProofs

/-!
# `console.c` — input lines

`consoleintr` edits the line that is being typed in a ring of `INPUT_BUF` characters with three
indices: `r` up to where readers have taken characters, `w` up to where lines are complete, and `e` up to
where the line being typed goes. `consoleread` takes characters between `r` and `w`.

`cons.lock` is held from the start of `consoleintr` to its end, and by `consoleread` until it returns
or sleeps, so that each of these is one step. A process that sleeps may be woken at any time.

The reference is a line editor on lists (`Editor`): the characters that are ready to be read, and the
line that is being typed. The ring gives every read what the reference gives it.
-/

namespace Xv6Console

open RingBuffer Function List UInt32

def INPUT_BUF : Nat := 128

/-- `C(x)`: Control-x -/
def C (x : Char) : UInt8 := UInt8.ofNat (x.toNat - '@'.toNat)

def newline : UInt8 := 10
def carriage : UInt8 := 13
def del : UInt8 := 0x7f

/-- `input[minor]` -/
structure Input where
  buf : Nat → UInt8
  r : UInt32
  w : UInt32
  e : UInt32

/-! ## `consoleintr` -/

/-- `input[minor].buf[input[minor].e++ % INPUT_BUF] = c` -/
def Input.store (i : Input) (c : UInt8) : Input :=
  { i with buf := update i.buf (i.e.toNat % INPUT_BUF) c, e := i.e + 1 }

/-- The loop of kill-line. It makes at most `e - w` rounds. -/
def killLine : Nat → Input → Input
  | 0, i => i
  | k + 1, i =>
    if i.e ≠ i.w ∧ i.buf ((i.e - 1).toNat % INPUT_BUF) ≠ newline then killLine k { i with e := i.e - 1 }
    else i

/-- One round of the loop of `consoleintr`. -/
def consoleChar (icanon : Bool) (i : Input) (c : UInt8) : Input :=
  if icanon = true then
    if c = C 'P' then i
    else if c = C 'U' then killLine (i.e - i.w).toNat i
    else if c = C 'H' ∨ c = del then
      if i.e ≠ i.w then { i with e := i.e - 1 } else i
    else if c ≠ 0 ∧ i.e - i.r < ofNat INPUT_BUF then
      let c := if c = carriage then newline else c
      let i := i.store c
      if c = newline ∨ c = C 'D' ∨ i.e = i.r + ofNat INPUT_BUF then { i with w := i.e } else i
    else i
  else if c ≠ 0 ∧ i.e - i.r < ofNat INPUT_BUF then
    let i := i.store c
    { i with w := i.e }
  else i

/-- `consoleintr`, for the characters that `getc` has. -/
def consoleintr (icanon : Bool) (i : Input) (cs : List UInt8) : Input :=
  cs.foldl (consoleChar icanon) i

/-! ## `consoleread` -/

/-- How a turn of `consoleread` ends: with a result, and the characters it has stored, or asleep. -/
inductive Turn (S : Type) where
  | returns (ret : Int) (dst : List UInt8) (i : S)
  | sleeps (n : Nat) (dst : List UInt8) (i : S)

/-- The loop of `consoleread`: `n` characters are still to be read, and `dst` has been stored. -/
def readLoop (icanon killed : Bool) (target : Nat) : Nat → List UInt8 → Input → Turn Input
  | 0, dst, i => .returns target dst i
  | n + 1, dst, i =>
    if i.r = i.w then
      if killed = true then .returns (-1) dst i else .sleeps (n + 1) dst i
    else
      let c := i.buf (i.r.toNat % INPUT_BUF)
      let i := { i with r := i.r + 1 }
      if c = C 'D' ∧ icanon = true then
        .returns ((target : Int) - ((n + 1 : Nat) : Int)) dst
          (if n + 1 < target then { i with r := i.r - 1 } else i)
      else
        let dst := dst ++ [c]
        if c = newline ∨ icanon = false then .returns ((target : Int) - n) dst i
        else readLoop icanon killed target n dst i

/-- A process asleep in `consoleread`. -/
structure Reader where
  minor : Int16
  target : Nat
  n : Nat
  dst : List UInt8

/-- What happens at the console: characters arrive, a process calls `consoleread`, a process that sleeps
    there goes on. -/
inductive Event (P : Type) where
  | typed (minor : Int16) (cs : List UInt8)
  | read (p : P) (minor : Int16) (n : Int)
  | wake (p : P)

/-- The inputs, the processes asleep, and the reads that have returned. `S` is the input of a device. -/
structure St (P S : Type) where
  input : Int16 → S
  asleep : P → Option Reader
  reads : List (P × Int × List UInt8)

variable {P S : Type} [DecidableEq P]

/-- The end of a turn of process `p`. -/
def St.turn (s : St P S) (p : P) (minor : Int16) (target : Nat) : Turn S → St P S
  | .returns ret dst i =>
    { input := update s.input minor i
      asleep := update s.asleep p none
      reads := s.reads ++ [(p, ret, dst)] }
  | .sleeps n dst i =>
    { s with
      input := update s.input minor i
      asleep := update s.asleep p (some ⟨minor, target, n, dst⟩) }

/-- One event, with what a device does with the characters and how a process reads from it. -/
def event (typed : Int16 → S → List UInt8 → S) (loop : P → Int16 → Nat → Nat → List UInt8 → S → Turn S)
    (s : St P S) : Event P → St P S
  | .typed minor cs => { s with input := update s.input minor (typed minor (s.input minor) cs) }
  | .read p minor n =>
    match s.asleep p with
    | some _ => s
    | none =>
      -- not console, not serial
      if minor < 0 ∨ 1 < minor then { s with reads := s.reads ++ [(p, 0, [])] }
      else s.turn p minor n.toNat (loop p minor n.toNat n.toNat [] (s.input minor))
  | .wake p =>
    match s.asleep p with
    | some x => s.turn p x.minor x.target (loop p x.minor x.target x.n x.dst (s.input x.minor))
    | none => s

/-- The console of the kernel. -/
def console (icanon : Int16 → Bool) (killed : P → Bool) (s : St P Input) (es : List (Event P)) : St P Input :=
  es.foldl (event (fun minor => consoleintr (icanon minor))
    fun p minor target => readLoop (icanon minor) (killed p) target) s

/-! ## The reference -/

/-- The characters ready to be read, and the line being typed. -/
structure Editor where
  ready : List UInt8
  line : List UInt8

/-- A character is typed. -/
def Editor.type (d : Editor) (c : UInt8) : Editor :=
  if c = 0 ∨ c = C 'P' then d
  else if c = C 'U' then { d with line := [] }
  else if c = C 'H' ∨ c = del then { d with line := d.line.dropLast }
  else if d.ready.length + d.line.length = INPUT_BUF then d
  else
    let c := if c = carriage then newline else c
    if c = newline ∨ c = C 'D' ∨ d.ready.length + d.line.length + 1 = INPUT_BUF then
      ⟨d.ready ++ d.line ++ [c], []⟩
    else { d with line := d.line ++ [c] }

/-- A read of `n` more characters, after those of `got`. It ends with a newline, with the count, or with an
    end-of-file: this one stays for the next read if the read has got some characters. -/
def takeReady (line : List UInt8) : Nat → List UInt8 → List UInt8 → Turn Editor
  | 0, got, ready => .returns got.length got ⟨ready, line⟩
  | n + 1, got, [] => .sleeps (n + 1) got ⟨[], line⟩
  | n + 1, got, c :: ready =>
    if c = C 'D' then .returns got.length got ⟨if got = [] then ready else c :: ready, line⟩
    else if c = newline then .returns (got.length + 1) (got ++ [c]) ⟨ready, line⟩
    else takeReady line n (got ++ [c]) ready

/-- The reference console. -/
def reference (s : St P Editor) (es : List (Event P)) : St P Editor :=
  es.foldl (event (fun _ d cs => cs.foldl Editor.type d)
    fun _ _ _ n got d => takeReady d.line n got d.ready) s

/-- A console where nothing has been typed, with the indices at `x`. -/
def start (P : Type) (buf : Int16 → Nat → UInt8) (x : Int16 → UInt32) : St P Input :=
  ⟨fun minor => ⟨buf minor, x minor, x minor, x minor⟩, fun _ => none, []⟩

def startRef (P : Type) : St P Editor := ⟨fun _ => ⟨[], []⟩, fun _ => none, []⟩

/-! ## The ring as an editor -/

/-- The characters between `r` and `e`. -/
def Input.ring (i : Input) : RingBuffer.Ring UInt8 := ⟨i.buf, i.r, i.e⟩

/-- How many of them are ready to be read. -/
def Input.done (i : Input) : Nat := (i.w - i.r).toNat

/-- The indices are in order. -/
structure Ordered (i : Input) : Prop where
  done : i.done ≤ i.ring.count
  count : i.ring.count ≤ INPUT_BUF

/-- The ring holds the characters of the editor. -/
structure Shows (i : Input) (d : Editor) : Prop where
  ordered : Ordered i
  ready : d.ready = (i.ring.contents INPUT_BUF).take i.done
  line : d.line = (i.ring.contents INPUT_BUF).drop i.done
  open_ : newline ∉ d.line

section Ring

variable {i : Input} {d : Editor} {c : UInt8}

theorem buf_dvd : INPUT_BUF ∣ 2 ^ 32 := by decide

theorem Shows.length (h : Shows i d) : d.ready.length = i.done ∧ d.ready.length + d.line.length = i.ring.count := by
  have hlen : (i.ring.contents INPUT_BUF).length = i.ring.count := contents_length
  have hle := h.ordered.done
  rw [h.ready, h.line, length_take, length_drop, hlen]
  omega

theorem Shows.contents (h : Shows i d) : i.ring.contents INPUT_BUF = d.ready ++ d.line := by
  rw [h.ready, h.line, take_append_drop]

/-- A ring with the characters of an editor shows it. -/
theorem shows_of (hc : i.ring.contents INPUT_BUF = d.ready ++ d.line) (hd : i.done = d.ready.length)
    (hcap : i.ring.count ≤ INPUT_BUF) (hopen : newline ∉ d.line) : Shows i d := by
  have hlen : (i.ring.contents INPUT_BUF).length = i.ring.count := contents_length
  rw [hc, length_append] at hlen
  refine ⟨⟨by omega, hcap⟩, ?_, ?_, hopen⟩
  · rw [hc, hd, take_left]
  · rw [hc, hd, drop_left]

section

variable (h : Shows i d)
include h

/-- Nothing is ready. -/
theorem Shows.empty : i.r = i.w ↔ d.ready = [] := by
  rw [← length_eq_zero_iff, h.length.1]
  exact (count_eq_zero (r := ⟨i.buf, i.r, i.w⟩)).symm

/-- There is room for another character. -/
theorem Shows.room : i.e - i.r < ofNat INPUT_BUF ↔ ¬ d.ready.length + d.line.length = INPUT_BUF := by
  have hcap := h.ordered.count
  rw [h.length.2, UInt32.lt_iff_toNat_lt]
  show i.ring.count < INPUT_BUF ↔ _
  omega

/-- `e - w` is the length of the line. -/
theorem Shows.typed : (i.e - i.w).toNat = d.line.length := by
  have hlen := h.length
  have hcap := h.ordered.count
  have h1 := i.r.toNat_lt
  have h2 := i.w.toNat_lt
  have h3 := i.e.toNat_lt
  have hd : i.done = (2 ^ 32 - i.r.toNat + i.w.toNat) % 2 ^ 32 := UInt32.toNat_sub _ _
  have hc : i.ring.count = (2 ^ 32 - i.r.toNat + i.e.toNat) % 2 ^ 32 := UInt32.toNat_sub _ _
  rw [UInt32.toNat_sub]
  omega

/-- Nothing is being typed. -/
theorem Shows.blank : i.e = i.w ↔ d.line = [] := by
  have h2 := i.w.toNat_lt
  have h3 := i.e.toNat_lt
  rw [← length_eq_zero_iff, ← h.typed, UInt32.toNat_sub, ← UInt32.toNat_inj]
  omega

/-- `e--` takes the last character off the line. -/
theorem Shows.erase (hne : d.line ≠ []) : Shows { i with e := i.e - 1 } { d with line := d.line.dropLast } := by
  have hpos : 0 < i.ring.count := by
    have := length_pos_iff.mpr hne
    have := h.length.2
    omega
  have hcount := count_unpush hpos
  have hcap := h.ordered.count
  refine shows_of ?_ h.length.1.symm ?_ fun hmem => h.open_ (dropLast_subset _ hmem)
  · show i.ring.unpush.contents INPUT_BUF = d.ready ++ d.line.dropLast
    rw [contents_unpush hpos, h.contents, dropLast_append_of_ne_nil hne]
  · show i.ring.unpush.count ≤ INPUT_BUF
    omega

/-- The last character of the line. -/
theorem Shows.last (hne : d.line ≠ []) : i.buf ((i.e - 1).toNat % INPUT_BUF) = d.line.getLast hne := by
  have hpos : 0 < i.ring.count := by
    have := length_pos_iff.mpr hne
    have := h.length.2
    omega
  have hlast := contents_getLast (r := i.ring) buf_dvd hpos
  rw [h.contents, getLast?_append_of_ne_nil _ hne, getLast?_eq_some_getLast hne] at hlast
  exact (Option.some.inj hlast).symm

end

theorem killLine_shows (k : Nat) {i : Input} {d : Editor} (h : Shows i d) (hk : d.line.length = k) :
    Shows (killLine k i) { d with line := [] } := by
  induction k generalizing i d with
  | zero =>
    have hnil := length_eq_zero_iff.mp hk
    cases d
    cases hnil
    exact h
  | succ k ih =>
    have hne : d.line ≠ [] := by
      rintro heq
      rw [heq] at hk
      cases hk
    -- the line has no newline, so that the second test of the loop is always passed
    have hlast : i.buf ((i.e - 1).toNat % INPUT_BUF) ≠ newline := by
      rw [h.last hne]
      exact fun heq => h.open_ (heq ▸ getLast_mem hne)
    rw [killLine, if_pos ⟨fun heq => hne (h.blank.mp heq), hlast⟩]
    refine ih (d := { d with line := d.line.dropLast }) (h.erase hne) ?_
    rw [length_dropLast, hk]
    rfl

/-- A character goes to the end of the line. -/
theorem Shows.store (h : Shows i d) (hroom : i.ring.count < INPUT_BUF) :
    (i.store c).ring.contents INPUT_BUF = d.ready ++ d.line ++ [c] ∧
      (i.store c).ring.count = i.ring.count + 1 ∧ (i.store c).done = d.ready.length := by
  have hsmall : INPUT_BUF < 2 ^ 32 := by decide
  have hpush : (i.store c).ring = i.ring.push INPUT_BUF c := rfl
  rw [hpush, ← h.contents, contents_push buf_dvd hsmall hroom, count_push (by omega)]
  exact ⟨rfl, rfl, h.length.1.symm⟩

/-- **A character is edited as in the reference.** -/
theorem consoleChar_shows (h : Shows i d) (c : UInt8) : Shows (consoleChar true i c) (d.type c) := by
  rw [consoleChar, if_pos rfl, Editor.type]
  by_cases hP : c = C 'P'
  · rw [if_pos hP, if_pos (.inr hP)]
    exact h
  rw [if_neg hP]
  by_cases h0 : c = 0
  · -- a NUL is none of the editing characters
    subst h0
    exact h
  rw [if_neg (not_or.mpr ⟨h0, hP⟩)]
  by_cases hU : c = C 'U'
  · rw [if_pos hU, if_pos hU]
    exact killLine_shows _ h h.typed.symm
  rw [if_neg hU, if_neg hU]
  by_cases hH : c = C 'H' ∨ c = del
  · rw [if_pos hH, if_pos hH]
    by_cases hb : i.e = i.w
    · rw [if_neg (not_not.mpr hb), h.blank.mp hb]
      have := h
      rw [show d = { d with line := [] } from by rw [← h.blank.mp hb]] at this
      exact this
    · rw [if_pos hb]
      exact h.erase fun hnil => hb (h.blank.mpr hnil)
  rw [if_neg hH, if_neg hH]
  by_cases hfull : d.ready.length + d.line.length = INPUT_BUF
  · rw [if_neg (fun hc => h.room.mp hc.2 hfull), if_pos hfull]
    exact h
  rw [if_pos ⟨h0, h.room.mpr hfull⟩, if_neg hfull]
  have hcap := h.ordered.count
  have hlen := h.length
  generalize (if c = carriage then newline else c) = c'
  obtain ⟨hcontents, hcount, hdone⟩ := h.store (c := c') (by omega)
  have hfull' : (i.store c').e = (i.store c').r + ofNat INPUT_BUF ↔ d.ready.length + d.line.length + 1 = INPUT_BUF := by
    have := count_eq_cap (r := (i.store c').ring) (show INPUT_BUF < 2 ^ 32 by decide)
    rw [hcount, ← hlen.2] at this
    exact this.symm
  by_cases hend : c' = newline ∨ c' = C 'D' ∨ d.ready.length + d.line.length + 1 = INPUT_BUF
  · -- the line is complete
    rw [if_pos (hend.imp_right (Or.imp_right hfull'.mpr)), if_pos hend]
    refine shows_of ?_ ?_ (by show (i.store c').ring.count ≤ INPUT_BUF; omega) (not_mem_nil)
    · show (i.store c').ring.contents INPUT_BUF = _
      rw [hcontents, append_nil]
    · show (i.store c').ring.count = _
      simp only [length_append, length_singleton]
      omega
  · rw [if_neg (fun hc => hend (hc.imp_right (Or.imp_right hfull'.mp))), if_neg hend]
    refine shows_of ?_ hdone (by omega) ?_
    · rw [hcontents, append_assoc]
    · intro hmem
      rcases mem_append.mp hmem with hmem | hmem
      · exact h.open_ hmem
      · exact hend (.inl (mem_singleton.mp hmem).symm)

theorem consoleintr_shows (cs : List UInt8) : ∀ {i : Input} {d : Editor}, Shows i d →
    Shows (consoleintr true i cs) (cs.foldl Editor.type d) := by
  induction cs with
  | nil => intro i d h; exact h
  | cons c cs ih => intro i d h; exact ih (consoleChar_shows h c)

/-! ## Reads -/

/-- `r++` takes the first character that is ready. -/
theorem Shows.take {ready : List UInt8} (h : Shows i d) (hr : d.ready = c :: ready) :
    i.buf (i.r.toNat % INPUT_BUF) = c ∧ Shows { i with r := i.r + 1 } ⟨ready, d.line⟩ := by
  have hpos : 0 < i.ring.count := by
    have := h.length.2
    rw [hr, length_cons] at this
    omega
  have hpop := contents_pop (r := i.ring) buf_dvd hpos
  rw [h.contents, hr, cons_append] at hpop
  obtain ⟨hc, hrest⟩ := cons.inj hpop
  have hcount := count_pop hpos
  have hcap := h.ordered.count
  have hdone : 0 < (RingBuffer.Ring.count (⟨i.buf, i.r, i.w⟩ : RingBuffer.Ring UInt8)) := by
    show 0 < i.done
    rw [← h.length.1, hr, length_cons]
    omega
  have hdone' := count_pop hdone
  have hready := h.length.1
  rw [hr, length_cons] at hready
  refine ⟨hc.symm, shows_of hrest.symm ?_ ?_ h.open_⟩
  · have h1 : (RingBuffer.Ring.count (⟨i.buf, i.r, i.w⟩ : RingBuffer.Ring UInt8)) = i.done := rfl
    show (RingBuffer.Ring.pop (⟨i.buf, i.r, i.w⟩ : RingBuffer.Ring UInt8)).count = ready.length
    omega
  · show i.ring.pop.count ≤ INPUT_BUF
    omega

/-- The turns end alike. -/
inductive Alike : Turn Input → Turn Editor → Prop where
  | returns {ret : Int} {dst : List UInt8} {i : Input} {d : Editor} (h : Shows i d) :
      Alike (.returns ret dst i) (.returns ret dst d)
  | sleeps {n : Nat} {dst : List UInt8} {i : Input} {d : Editor} (h : Shows i d) :
      Alike (.sleeps n dst i) (.sleeps n dst d)

/-- **A turn of a read is one of the reference.** -/
theorem readLoop_alike {target : Nat} (n : Nat) {dst : List UInt8} {i : Input} {d : Editor} (h : Shows i d)
    (ht : dst.length + n = target) : Alike (readLoop true false target n dst i) (takeReady d.line n dst d.ready) := by
  induction n generalizing dst i d with
  | zero =>
    rw [readLoop, takeReady, ← ht]
    exact .returns h
  | succ n ih =>
    rw [readLoop]
    cases hr : d.ready with
    | nil =>
      rw [if_pos (h.empty.mpr hr), if_neg Bool.false_ne_true, takeReady]
      refine .sleeps ?_
      rw [← hr]
      exact h
    | cons c ready =>
      have hne : i.r ≠ i.w := fun heq => nomatch hr.symm.trans (h.empty.mp heq)
      obtain ⟨hc, hnext⟩ := h.take hr
      rw [if_neg hne, takeReady]
      rw [hc]
      by_cases hD : c = C 'D'
      · rw [if_pos ⟨hD, rfl⟩, if_pos hD]
        have hret : (target : Int) - ((n + 1 : Nat) : Int) = dst.length := by omega
        rw [hret]
        refine .returns ?_
        by_cases hnil : dst = []
        · subst hnil
          rw [if_neg (by simp only [length_nil] at ht; omega), if_pos rfl]
          exact hnext
        · -- the end-of-file is left for the next read
          have hpos := length_pos_iff.mpr hnil
          rw [if_pos (by omega), if_neg hnil, ← hr, UInt32.add_sub_cancel]
          exact h
      · rw [if_neg (fun hc => hD hc.1), if_neg hD]
        by_cases hnl : c = newline
        · rw [if_pos (.inl hnl), if_pos hnl]
          have hret : (target : Int) - n = dst.length + 1 := by omega
          rw [hret]
          exact .returns hnext
        · rw [if_neg (not_or.mpr ⟨hnl, by decide⟩), if_neg hnl]
          refine ih (d := ⟨ready, d.line⟩) hnext ?_
          rw [length_append, length_singleton]
          omega

/-- What the loop has left to read and what it has stored make up the count. -/
theorem takeReady_count (line : List UInt8) {target : Nat} : ∀ (n : Nat) {dst : List UInt8} (ready : List UInt8),
    dst.length + n = target → ∀ (m : Nat) (got : List UInt8) (d : Editor),
      takeReady line n dst ready = .sleeps m got d → got.length + m = target := by
  intro n
  induction n with
  | zero => intro dst ready _ m got d h; rw [takeReady] at h; cases h
  | succ n ih =>
    intro dst ready ht m got d h
    cases ready with
    | nil =>
      obtain ⟨rfl, rfl, -⟩ := Turn.sleeps.inj h
      exact ht
    | cons c ready =>
      rw [takeReady] at h
      split at h
      · cases h
      · by_cases hnl : c = newline
        · rw [if_pos hnl] at h; cases h
        · rw [if_neg hnl] at h
          refine ih ready ?_ m got d h
          rw [length_append, length_singleton]
          omega

end Ring

/-! ## The two consoles -/

/-- The two consoles agree on everything that processes can see. -/
structure Agree (s : St P Input) (t : St P Editor) : Prop where
  input : ∀ minor, Shows (s.input minor) (t.input minor)
  asleep : s.asleep = t.asleep
  reads : s.reads = t.reads
  count : ∀ p x, t.asleep p = some x → x.dst.length + x.n = x.target

variable {s : St P Input} {t : St P Editor}

omit [DecidableEq P] in
theorem shows_update (h : ∀ minor, Shows (s.input minor) (t.input minor)) {minor : Int16} {i : Input} {d : Editor}
    (hi : Shows i d) (m : Int16) : Shows (update s.input minor i m) (update t.input minor d m) := by
  by_cases hm : m = minor
  · rw [hm, update_self, update_self]; exact hi
  · rw [update_of_ne hm, update_of_ne hm]; exact h m

/-- A turn of a process. -/
theorem Agree.turn (h : Agree s t) {p : P} {minor : Int16} {target n : Nat} {dst : List UInt8}
    (ht : dst.length + n = target) : Agree (s.turn p minor target (readLoop true false target n dst (s.input minor)))
      (t.turn p minor target (takeReady (t.input minor).line n dst (t.input minor).ready)) := by
  have halike := readLoop_alike n (h.input minor) ht
  have hcount := takeReady_count (t.input minor).line n (t.input minor).ready ht
  generalize readLoop true false target n dst (s.input minor) = x at halike
  generalize takeReady (t.input minor).line n dst (t.input minor).ready = y at halike hcount
  cases halike with
  | returns hs =>
    refine ⟨shows_update h.input hs, ?_, ?_, fun q x hx => ?_⟩
    · show update s.asleep p none = update t.asleep p none
      rw [h.asleep]
    · show s.reads ++ _ = t.reads ++ _
      rw [h.reads]
    · have hx' : update t.asleep p none q = some x := hx
      rw [update_apply] at hx'
      split_ifs at hx'
      exact h.count q x hx'
  | @sleeps m got i d hs =>
    refine ⟨shows_update h.input hs, ?_, h.reads, fun q x hx => ?_⟩
    · show update s.asleep p _ = update t.asleep p _
      rw [h.asleep]
    · have hx' : update t.asleep p (some ⟨minor, target, m, got⟩) q = some x := hx
      rw [update_apply] at hx'
      split_ifs at hx'
      · cases hx'
        exact hcount m got d rfl
      · exact h.count q x hx'

/-- **One event** keeps the two consoles in agreement. -/
theorem Agree.event (h : Agree s t) (x : Event P) :
    Agree (Xv6Console.event (fun _ => consoleintr true) (fun _ _ target => readLoop true false target) s x)
      (Xv6Console.event (fun _ d cs => cs.foldl Editor.type d)
        (fun _ _ _ n got d => takeReady d.line n got d.ready) t x) := by
  cases x with
  | typed minor cs =>
    exact ⟨shows_update h.input (consoleintr_shows cs (h.input minor)), h.asleep, h.reads, h.count⟩
  | read p minor n =>
    rw [Xv6Console.event, Xv6Console.event, congrFun h.asleep p]
    cases hp : t.asleep p with
    | some x => exact h
    | none =>
      split_ifs with hm
      · exact ⟨h.input, h.asleep, congrArg (· ++ _) h.reads, h.count⟩
      · exact h.turn (Nat.zero_add _)
  | wake p =>
    rw [Xv6Console.event, Xv6Console.event, congrFun h.asleep p]
    cases hp : t.asleep p with
    | some x => exact h.turn (h.count p x hp)
    | none => exact h

theorem run_agree (es : List (Event P)) : ∀ {s : St P Input} {t : St P Editor}, Agree s t →
    Agree (console (fun _ => true) (fun _ => false) s es) (reference t es) := by
  induction es with
  | nil => intro s t h; exact h
  | cons x es ih => intro s t h; exact ih (h.event x)

omit [DecidableEq P] in
theorem start_agree (buf : Int16 → Nat → UInt8) (x : Int16 → UInt32) : Agree (start P buf x) (startRef P) := by
  refine ⟨fun minor => ?_, rfl, rfl, nofun⟩
  have hzero : (x minor - x minor).toNat = 0 := by rw [UInt32.sub_self]; rfl
  refine shows_of ?_ hzero ?_ not_mem_nil
  · exact contents_nil hzero
  · show (x minor - x minor).toNat ≤ INPUT_BUF
    omega

/-- **The console is the reference line editor**, in canonical mode and for processes that are not killed,
    whatever has happened since the indices were equal, also past a wrap of the indices: the reads that
    have returned are those of the reference with the same bytes and in the same order, the processes
    asleep are the same and have stored the same bytes, and the indices of every device are in order. -/
theorem console_is_line_editor (buf : Int16 → Nat → UInt8) (x : Int16 → UInt32) (es : List (Event P)) :
    let s := console (fun _ => true) (fun _ => false) (start P buf x) es
    s.reads = (reference (startRef P) es).reads ∧ s.asleep = (reference (startRef P) es).asleep ∧
      ∀ minor, (s.input minor).w - (s.input minor).r ≤ (s.input minor).e - (s.input minor).r ∧
        (s.input minor).e - (s.input minor).r ≤ ofNat INPUT_BUF := by
  have h := run_agree es (start_agree (P := P) buf x)
  refine ⟨h.reads, h.asleep, fun minor => ?_⟩
  have hord := (h.input minor).ordered
  exact ⟨le_iff_toNat_le.mpr hord.done, le_iff_toNat_le.mpr hord.count⟩

-- "ab", backspace, "c", carriage return, where the indices wrap
example : (console (fun _ => true) (fun _ => false) (start Unit (fun _ _ => 0) fun _ => 0xffffffff)
    [.typed 1 [97, 98, 8, 99, 13], .read () 1 10]).reads = [((), 3, [97, 99, 10])] := by decide

end Xv6Console
