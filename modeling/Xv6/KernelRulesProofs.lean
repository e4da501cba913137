import Xv6.FsCodeProofs

/-!
# Rules for kernel code on the logical machine

`Does W N Q p s` is what the later files prove about a piece `p` of kernel code that runs
from `s`: it calls `log_write` on blocks of `W` only and writes no block past the log, it takes the
panic "ilock: no type" only if `N` holds, and if it finishes, the result and the last state satisfy `Q`. `W` is the
**footprint** of the code. `N` is a switch: with `N := True` nothing is claimed
about that panic, and with `N := False` it is excluded.

There is one rule for each command and each accessor of the kernel's tables, with the rest
of the code as its premise, so that a proof reads along the source.
-/

namespace Xv6Fs

open CmdProg ByteBuf Xv6Disk Xv6Kernel Function

/-! ## Names for the changes of a state -/

/-- The state after a store into the buffer of block `b`. -/
def put (s : LState) (b : Nat) (d : Block) : LState :=
  { s with view := update s.view b d }

/-- The state after `log_write` of block `b`. -/
def log (s : LState) (b : Nat) : LState := { s with lh := absorb s.lh b }

/-- The state after a change of the kernel's tables. -/
def setTables (s : LState) (m : Mem) : LState := { s with mem := m }

/-- The state after a change of the in-memory inode `k`. -/
def setInode (s : LState) (k : Fin NINODE) (i : Inode) : LState :=
  { s with mem := { s.mem with icache := update s.mem.icache k i } }

/-- The state after point `e` has been passed. -/
def pass (s : LState) (e : Point) : LState :=
  { s with passed := update s.passed e (s.passed e + 1) }

/-- The state after `begin_op`. -/
def entered (s : LState) : LState := { s with outstanding := s.outstanding + 1 }

/-- The state after `end_op`: the last one out commits. -/
def left (s : LState) : LState :=
  if s.outstanding - 1 = 0 then { s with outstanding := 0, lh := [] }
  else { s with outstanding := s.outstanding - 1 }

section Fields

variable (s : LState) (b : Nat) (d : Block) (k : Fin NINODE) (i j : Inode)

@[simp] theorem put_view : (put s b d).view = update s.view b d := rfl
@[simp] theorem put_lh : (put s b d).lh = s.lh := rfl
@[simp] theorem log_view : (log s b).view = s.view := rfl
@[simp] theorem log_lh : (log s b).lh = absorb s.lh b := rfl
@[simp] theorem setInode_view : (setInode s k i).view = s.view := rfl
@[simp] theorem setInode_lh : (setInode s k i).lh = s.lh := rfl
@[simp] theorem setInode_sb : (setInode s k i).mem.sb = s.mem.sb := rfl
@[simp] theorem setInode_icache : (setInode s k i).mem.icache = update s.mem.icache k i := rfl

@[simp] theorem left_view : (left s).view = s.view := by
  unfold left
  split <;> rfl

@[simp] theorem left_mem : (left s).mem = s.mem := by
  unfold left
  split <;> rfl

@[simp] theorem left_logSize : (left s).logSize = s.logSize := by
  unfold left
  split <;> rfl

@[simp] theorem setInode_twice : setInode (setInode s k i) k j = setInode s k j := by
  show { s with mem := { s.mem with icache := _ } } = { s with mem := { s.mem with icache := _ } }
  rw [setInode_icache, update_idem]

@[simp] theorem setInode_self : setInode s k (s.mem.icache k) = s := by
  show { s with mem := { s.mem with icache := _ } } = s
  rw [update_eq_self]

end Fields

/-! ## `Does` -/

/-- The message of the panic that `N` is about. -/
def noType : String := "ilock: no type"

/-- What single commands the code may issue. -/
def Allowed (W : Set Nat) (N : Prop) : Cmd → LState → Prop
  | .logWrite b, _ => b ∈ W
  | .bwrite _, _ => False
  | .stop e, _ => e = .panic noType → N
  | _, _ => True

/-- The code logs only blocks of `W`, stops with "ilock: no type" only under `N`, and
    finishes in `Q` if it finishes. -/
def Does {α : Type} (W : Set Nat) (N : Prop) (Q : α → LState → Prop) (p : K α) (s : LState) :
    Prop :=
  Meets lstep (Allowed W N) Q p s

section Rules

variable {α β : Type} {W W' : Set Nat} {N N' : Prop} {Q : β → LState → Prop} {s : LState}

theorem does_pure {a : β} (h : Q a s) : Does W N Q (pure a) s := h

/-- The rule for sequences. -/
theorem does_seq {R : α → LState → Prop} {p : K α} {f : α → K β} (hp : Does W N R p s)
    (hf : ∀ a s', R a s' → Does W N Q (f a) s') : Does W N Q (p >>= f) s :=
  meets_seq hp hf

/-- The rule of consequence. -/
theorem does_mono {R : β → LState → Prop} {p : K β} (hp : Does W N R p s)
    (h : ∀ a s', R a s' → Q a s') : Does W N Q p s :=
  meets_mono hp (fun _ _ hc => hc) h

theorem does_last {p : K β} (h : Does W N Q (p >>= pure) s) : Does W N Q p s := meets_last h

theorem does_exec {p : K β} {a : β} {s' : LState} (h : Does W N Q p s) (hr : exec p s = .done a s') : Q a s' :=
  meets_run h hr

variable {b : Nat} {d : Block} {k : Fin NINODE} {f : Unit → K β}

theorem does_bread {f : Block → K β} (h : b < FSSIZE → Does W N Q (f (s.view b)) s) : Does W N Q (bread b >>= f) s := by
  refine meets_runs trivial (fun _ _ => exec_bread_done.mp) ?_
  rintro _ _ ⟨hb, rfl, rfl⟩
  exact h hb

theorem does_bstore (h : Does W N Q (f ()) (put s b d)) : Does W N Q (bstore b d >>= f) s :=
  meets_op trivial rfl h

theorem does_logWrite (hb : b ∈ W) (h : Does W N Q (f ()) (log s b)) : Does W N Q (logWrite b >>= f) s := by
  refine meets_runs hb (fun _ _ => exec_logWrite_done) ?_
  rintro _ _ rfl
  exact h

theorem does_brelse (h : Does W N Q (f ()) s) : Does W N Q (brelse b >>= f) s :=
  meets_op trivial rfl h

theorem does_getMem {f : Mem → K β} (h : Does W N Q (f s.mem) s) : Does W N Q (getMem >>= f) s :=
  meets_op trivial rfl h

theorem does_modMem {g : Mem → Mem} (h : Does W N Q (f ()) (setTables s (g s.mem))) : Does W N Q (modMem g >>= f) s :=
  meets_op trivial rfl (meets_op trivial rfl h)

theorem does_input {f : UInt32 → K β} (h : ∀ v, Does W N Q (f v) { s with input := fun n => s.input (n + 1) }) :
    Does W N Q (input >>= f) s :=
  meets_op trivial rfl (h _)

theorem does_point {e : Point} (h : Does W N Q (f ()) (pass s e)) : Does W N Q (point e >>= f) s :=
  meets_op trivial rfl h

theorem does_beginOp (h : Does W N Q (f ()) (entered s)) : Does W N Q (beginOp >>= f) s := by
  refine meets_runs trivial (fun _ _ => exec_beginOp_done) ?_
  rintro _ _ rfl
  exact h

theorem exec_endOp_done {u : Unit} {s' : LState} (h : exec endOp s = .done u s') : s' = left s := by
  rw [exec_endOp] at h
  cases h
  rfl

theorem does_endOp (h : Does W N Q (f ()) (left s)) : Does W N Q (endOp >>= f) s := by
  refine meets_runs trivial (fun _ _ => exec_endOp_done) ?_
  rintro _ _ rfl
  exact h

theorem does_getInode {f : Inode → K β} (h : Does W N Q (f (s.mem.icache k)) s) : Does W N Q (getInode k >>= f) s :=
  meets_op trivial rfl h

theorem does_modInode {g : Inode → Inode}
    (h : Does W N Q (f ()) (setInode s k (g (s.mem.icache k)))) : Does W N Q (modInode k g >>= f) s :=
  does_modMem h

theorem does_modDin {g : Dinode → Dinode} (h : Does W N Q (f ())
      (setInode s k { s.mem.icache k with din := g (s.mem.icache k).din })) :
    Does W N Q (modDin k g >>= f) s :=
  does_modInode h

theorem does_getSb {f : Superblock → K β} (h : Does W N Q (f s.mem.sb) s) : Does W N Q (getSb >>= f) s :=
  meets_op trivial rfl h

theorem does_readsb {f : Superblock → K β} (h : Does W N Q (f (getSuperblock (s.view 1))) s) :
    Does W N Q (readsb >>= f) s := by
  refine does_seq (R := fun r s' => r = getSuperblock (s.view 1) ∧ s' = s) ?_ ?_
  · exact does_bread fun _ => does_brelse (does_pure ⟨rfl, rfl⟩)
  · rintro _ _ ⟨rfl, rfl⟩
    exact h

theorem does_halt {e : Stop} (he : e = .panic noType → N) : Does W N Q (halt e) s :=
  ⟨he, fun r => r.elim⟩

/-- A panic is no result. -/
theorem does_kpanic {msg : String} (hmsg : msg ≠ noType) : Does W N Q (kpanic msg) s :=
  does_halt fun h => absurd (Stop.panic.inj h) hmsg

end Rules

end Xv6Fs
