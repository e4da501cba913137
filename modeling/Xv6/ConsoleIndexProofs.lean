import Xv6.ConsoleInputProofs

/-!
# `console.c` — the minor number as an index

`cons.termios` and `input` have two elements. The minor number of a device inode is what the user gave to
`mknod`, cut to a short. `consoleread` compares it with 0 and 1, `consolewrite` only hands it to `consputc`,
which compares it with 0, and `consoleioctl` uses it as it is.

The calls run on the console of `ConsoleInputProofs`. `termios` is given by any index: outside of 0 and 1
stands whatever the kernel has in memory there.
-/

namespace Xv6Console

open Function List

/-- The `minor` of the inode that `sys_mknod` creates: the parameter of `create` is a short. -/
def mknodMinor (minor : Int32) : Int16 :=
  minor.toInt16

def TCGETA : Int := 0x5405

def TCSETA : Int := 0x5406

/-- An element of one of the two arrays is used. -/
inductive Access where
  | input (i : Int)
  | termios (i : Int)
deriving DecidableEq

def Access.index : Access → Int
  | .input i => i
  | .termios i => i

/-- The accesses of `readLoop`. -/
def readAccesses (minor : Int) (icanon killed : Bool) (target : Nat) : Nat → Input → List Access
  | 0, _ => []
  | n + 1, i =>
    .input minor :: if i.r = i.w then
      -- `sleep(&input[minor].r, &cons.lock)`
      if killed = true then [] else [.input minor]
    else
      let c := i.buf (i.r.toNat % INPUT_BUF)
      .input minor :: if c = C 'D' ∧ icanon = true then
        .termios minor :: if n + 1 < target then [.input minor] else []
      else
        (if c = C 'D' then [.termios minor] else []) ++
          if c = newline then []
          else .termios minor :: if icanon = false then []
            else readAccesses minor icanon killed target n { i with r := i.r + 1 }

variable {P T : Type} [DecidableEq P]

/-- What happens at the console, with the calls of `write` and `ioctl`. `user` is the structure the third argument
    of `ioctl` points to, `none` if `argptr` does not accept the pointer. -/
inductive Call (P T : Type) where
  | event (e : Event P)
  | write (minor : Int16) (buf : List UInt8)
  | ioctl (minor : Int16) (req : Int) (user : Option T)

/-- The inputs and readers, and `cons.termios`. -/
structure Console (P T : Type) where
  base : St P Input
  termios : Int → T

section
variable (icanon : T → Bool) (killed : P → Bool)

/-- The accesses of `consoleread`, `consolewrite` and `consoleioctl` in a call. -/
def accesses (s : Console P T) : Call P T → List Access
  | .event (.typed _ _) => []
  | .event (.read p minor n) =>
    match s.base.asleep p with
    | some _ => []
    | none =>
      if minor < 0 ∨ 1 < minor then []
      else readAccesses minor.toInt (icanon (s.termios minor.toInt)) (killed p) n.toNat n.toNat (s.base.input minor)
  | .event (.wake p) =>
    match s.base.asleep p with
    | some x =>
      readAccesses x.minor.toInt (icanon (s.termios x.minor.toInt)) (killed p) x.target x.n (s.base.input x.minor)
    | none => []
  | .write _ _ => []
  | .ioctl minor req user =>
    if req ≠ TCGETA ∧ req ≠ TCSETA then []
    else if user.isNone then [] else [.termios minor.toInt]

/-- The console after a call. -/
def perform (s : Console P T) : Call P T → Console P T
  | .event e =>
    { s with base := console (fun minor => icanon (s.termios minor.toInt)) killed s.base [e] }
  | .write _ _ => s
  | .ioctl minor req user =>
    match user with
    | some x => if req = TCSETA then { s with termios := update s.termios minor.toInt x } else s
    | none => s

/-- The accesses of a sequence of calls. -/
def trace : Console P T → List (Call P T) → List Access
  | _, [] => []
  | s, c :: cs => accesses icanon killed s c ++ trace (perform icanon killed s c) cs

end

/-- The index is one of the two terminals. -/
def Inside (i : Int) : Prop :=
  i = 0 ∨ i = 1

theorem readAccesses_index {minor : Int} {icanon killed : Bool} {target : Nat} (hm : Inside minor) :
    ∀ (n : Nat) (i : Input), ∀ a ∈ readAccesses minor icanon killed target n i, Inside a.index := by
  intro n
  induction n with
  | zero => exact fun _ _ ha => nomatch ha
  | succ n ih =>
    intro i a ha
    have hin : a = .input minor ∨ a = .termios minor ∨ a ∈ readAccesses minor icanon killed target n
        { i with r := i.r + 1 } := by
      rw [readAccesses] at ha
      grind
    rcases hin with rfl | rfl | hin
    · exact hm
    · exact hm
    · exact ih _ a hin

theorem inside_of_checked {minor : Int16} (h : ¬ (minor < 0 ∨ 1 < minor)) : Inside minor.toInt := by
  rw [Int16.lt_iff_toInt_lt, Int16.lt_iff_toInt_lt] at h
  have h0 : (0 : Int16).toInt = 0 := rfl
  have h1 : (1 : Int16).toInt = 1 := rfl
  rw [Inside]
  omega

/-- Who sleeps in `consoleread` has passed its check. -/
def Checked (s : Console P T) : Prop :=
  ∀ p x, s.base.asleep p = some x → Inside x.minor.toInt

section
variable {icanon : T → Bool} {killed : P → Bool} {s : Console P T}

theorem Checked.turn (h : Checked s) {p : P} {minor : Int16} (hm : Inside minor.toInt) (target : Nat)
    (t : Turn Input) {q : P} {x : Reader} (hx : (s.base.turn p minor target t).asleep q = some x) :
    Inside x.minor.toInt := by
  cases t with
  | returns ret dst i =>
    have hx' : update s.base.asleep p none q = some x := hx
    rw [update_apply] at hx'
    split_ifs at hx'
    exact h q x hx'
  | sleeps n dst i =>
    have hx' : update s.base.asleep p (some ⟨minor, target, n, dst⟩) q = some x := hx
    rw [update_apply] at hx'
    split_ifs at hx'
    · cases hx'
      exact hm
    · exact h q x hx'

theorem Checked.perform (h : Checked s) (c : Call P T) : Checked (perform icanon killed s c) := by
  cases c with
  | event e =>
    intro q x hx
    cases e with
    | typed minor cs => exact h q x hx
    | read p minor n =>
      simp only [Xv6Console.perform, console, foldl_cons, foldl_nil, event] at hx
      split at hx
      · exact h q x hx
      · split at hx
        · exact h q x hx
        · next hm => exact h.turn (inside_of_checked hm) _ _ hx
    | wake p =>
      simp only [Xv6Console.perform, console, foldl_cons, foldl_nil, event] at hx
      split at hx
      · next y hy => exact h.turn (h p y hy) _ _ hx
      · exact h q x hx
  | write minor buf => exact h
  | ioctl minor req user =>
    cases user with
    | none => exact h
    | some x =>
      simp only [Xv6Console.perform]
      split <;> exact h

/-- A call meets the condition: an `ioctl` that gets as far as the array is for one of the two terminals. -/
def Call.Fits : Call P T → Prop
  | .ioctl minor req user => (req = TCGETA ∨ req = TCSETA) → user.isSome → Inside minor.toInt
  | _ => True

omit [DecidableEq P] in
theorem accesses_index_iff (h : Checked s) (c : Call P T) :
    (∀ a ∈ accesses icanon killed s c, Inside a.index) ↔ c.Fits := by
  cases c with
  | event e =>
    refine iff_of_true (fun a ha => ?_) trivial
    cases e with
    | typed minor cs => cases ha
    | read p minor n =>
      simp only [accesses] at ha
      split at ha
      · cases ha
      · split at ha
        · cases ha
        · next hm => exact readAccesses_index (inside_of_checked hm) _ _ a ha
    | wake p =>
      simp only [accesses] at ha
      split at ha
      · next x hx => exact readAccesses_index (h p x hx) _ _ a ha
      · cases ha
  | write minor buf => exact iff_of_true (fun _ ha => nomatch ha) trivial
  | ioctl minor req user =>
    simp only [accesses, Call.Fits]
    cases user with
    | none => simp
    | some x =>
      by_cases hr : req = TCGETA ∨ req = TCSETA
      · rw [if_neg (by tauto)]
        simp [hr, Access.index]
      · rw [if_pos (by tauto)]
        simp [hr]

/-- From a console at which nobody sleeps, in every sequence of reads, writes and `ioctl`s with any minor numbers,
    the two arrays are used with the indices 0 and 1 only if and only if every `TCGETA` and `TCSETA` with a valid
    pointer is for one of the two terminals. -/
theorem console_indices_iff (hs : ∀ p, s.base.asleep p = none) (cs : List (Call P T)) :
    (∀ a ∈ trace icanon killed s cs, a.index = 0 ∨ a.index = 1) ↔ ∀ c ∈ cs, c.Fits := by
  have hrun : ∀ (cs : List (Call P T)) (s : Console P T), Checked s →
      ((∀ a ∈ trace icanon killed s cs, Inside a.index) ↔ ∀ c ∈ cs, c.Fits) := by
    intro cs
    induction cs with
    | nil => exact fun _ _ => iff_of_true nofun nofun
    | cons c cs ih =>
      intro s h
      rw [trace, forall_mem_append, forall_mem_cons, accesses_index_iff h, ih _ (h.perform c)]
  exact hrun cs s fun p x hx => nomatch (hs p).symm.trans hx

end

/-- A console at which nothing has happened; the structures are numbers here. -/
def quiet : Console Unit Nat :=
  ⟨⟨fun _ => ⟨fun _ => 0, 0, 0, 0⟩, fun _ => none, []⟩, fun _ => 0⟩

/-- `TCGETA` for a device made with minor number 1. -/
theorem console_indices_one : mknodMinor 1 = 1 ∧
    ∀ a ∈ trace (fun _ => true) (fun _ => false) quiet [.ioctl (mknodMinor 1) TCGETA (some 7)],
      a.index = 0 ∨ a.index = 1 := by
  refine ⟨rfl, (console_indices_iff (fun _ => rfl) _).mpr fun c hc => ?_⟩
  obtain rfl := mem_singleton.mp hc
  exact fun _ _ => .inr rfl

/-- `TCSETA` for a device made with `mknod(path, CONSOLE, 100)` overwrites what stands at index 100. -/
theorem console_index_outside :
    trace (fun _ => true) (fun _ => false) quiet [.ioctl (mknodMinor 100) TCSETA (some 7)] = [.termios 100] ∧
      (perform (fun _ => true) (fun _ => false) quiet (.ioctl (mknodMinor 100) TCSETA (some 7))).termios 100 = 7 := by
  decide

end Xv6Console
