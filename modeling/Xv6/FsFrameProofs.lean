import Xv6.SysfileCodeProofs

/-!
# What `fs.c` leaves alone

The code of `fs.c` never opens or closes a transaction, and of the kernel's tables it changes
the inode cache and the copy of the superblock only. `Calm` says so of a piece of code, whatever
state it starts in: it is a property of the text, and goes through the functions of `fs.c` from
the bottom up. With the switch `I` off, the code does not enter `iput` either.

What follows for a run is `Calm.meets`: the file table, the process table, the pipes, the number of
outstanding transactions and the points that have been passed, except `iput`, are as before.
-/

namespace Xv6Sys

open CmdProg ByteBuf Xv6Disk Xv6Kernel Xv6Fs

/-- What single commands `fs.c` issues. -/
def Inner (I : Prop) : Cmd → LState → Prop
  | .beginOp, _ => False
  | .endOp, _ => False
  | .setMem m, s => m.ftable = s.mem.ftable ∧ m.ptable = s.mem.ptable ∧ m.pipes = s.mem.pipes
  | .point e, _ => e = .iput ∧ I
  | .stop e, _ => e ≠ .freed
  | _, _ => True

/-- Code that issues only such commands. -/
def Calm {α : Type} (I : Prop) (p : K α) : Prop :=
  ∀ s, Meets lstep (Inner I) (fun _ _ => True) p s

/-- What `fs.c` leaves as it is. -/
structure Same (s s' : LState) : Prop where
  ftable : s'.mem.ftable = s.mem.ftable
  ptable : s'.mem.ptable = s.mem.ptable
  pipes : s'.mem.pipes = s.mem.pipes
  outstanding : s'.outstanding = s.outstanding
  logSize : s'.logSize = s.logSize
  passed : ∀ e, e ≠ .iput → s'.passed e = s.passed e

section Rules

variable {α β : Type} {I J : Prop} {p q : K α} {f : α → K β} {s s' s'' : LState} {b : Nat}

theorem Same.refl : Same s s := ⟨rfl, rfl, rfl, rfl, rfl, fun _ _ => rfl⟩

theorem Same.trans (h1 : Same s s') (h2 : Same s' s'') : Same s s'' :=
  ⟨h2.ftable.trans h1.ftable, h2.ptable.trans h1.ptable, h2.pipes.trans h1.pipes,
    h2.outstanding.trans h1.outstanding, h2.logSize.trans h1.logSize,
    fun e he => (h2.passed e he).trans (h1.passed e he)⟩

/-- One command. -/
theorem inner_same {c : Cmd} (h : Inner I c s) : Same s (lstep c s).state := by
  cases c with
  | beginOp => exact h.elim
  | endOp => exact h.elim
  | setMem m => exact ⟨h.1, h.2.1, h.2.2, rfl, rfl, fun _ _ => rfl⟩
  | point e =>
    refine ⟨rfl, rfl, rfl, rfl, rfl, fun e' he' => ?_⟩
    have hne : e' ≠ e := h.1 ▸ he'
    exact Function.update_of_ne hne _ _
  | bread b =>
    show Same s (if b < FSSIZE then Out.done (s.view b) s
      else Out.stop (Stop.panic "incorrect blockno") s).state
    by_cases hb : b < FSSIZE
    · rw [if_pos hb]; exact .refl
    · rw [if_neg hb]; exact .refl
  | logWrite b =>
    show Same s (if LOGSIZE ≤ s.lh.length ∨ (s.logSize : Int) - 1 ≤ s.lh.length then
      Out.stop (Stop.panic "too big a transaction") s
      else if s.outstanding < 1 then .stop (.panic "log_write outside of trans") s
      else .done () { s with lh := absorb s.lh b }).state
    split
    · exact .refl
    · by_cases h2 : s.outstanding < 1
      · rw [if_pos h2]; exact .refl
      · rw [if_neg h2]; exact ⟨rfl, rfl, rfl, rfl, rfl, fun _ _ => rfl⟩
  | bstore b d | input => exact ⟨rfl, rfl, rfl, rfl, rfl, fun _ _ => rfl⟩
  | brelse b | bwrite b | getMem | stop e => exact .refl

/-- **A run of calm code** leaves the other tables alone. -/
theorem Calm.meets (h : Calm I p) (s : LState) : Meets lstep (Inner I) (fun _ s' => Same s s') p s := by
  have hrun : ∀ (p : K α) (t : LState), Same s t → Meets lstep (Inner I) (fun _ _ => True) p t →
      Meets lstep (Inner I) (fun _ s' => Same s s') p t := by
    intro p
    induction p with
    | ret a => exact fun t ht _ => ht
    | op c k ih =>
      intro t ht hm
      refine ⟨hm.1, fun r t' hr => ih r t' (ht.trans ?_) (hm.2 r t' hr)⟩
      have hstep := inner_same hm.1
      rw [hr] at hstep
      exact hstep
  exact hrun p s .refl (h s)

theorem calm_pure {a : α} : Calm I (pure a : K α) := fun _ => trivial

theorem calm_bind (hp : Calm I p) (hf : ∀ a, Calm I (f a)) : Calm I (p >>= f) :=
  fun s => meets_seq (hp s) fun a s' _ => hf a s'

theorem calm_ite {c : Prop} [Decidable c] (hp : Calm I p) (hq : Calm I q) : Calm I (if c then p else q) := by
  split_ifs with h
  · exact hp
  · exact hq

theorem calm_bread : Calm I (bread b) := fun _ => ⟨trivial, fun _ _ _ => trivial⟩
theorem calm_bstore {d : Block} : Calm I (bstore b d) :=
  fun _ => ⟨trivial, fun _ _ _ => trivial⟩
theorem calm_logWrite : Calm I (logWrite b) := fun _ => ⟨trivial, fun _ _ _ => trivial⟩
theorem calm_brelse : Calm I (brelse b) := fun _ => ⟨trivial, fun _ _ _ => trivial⟩
theorem calm_bwrite : Calm I (bwrite b) := fun _ => ⟨trivial, fun _ _ _ => trivial⟩
theorem calm_input : Calm I input := fun _ => ⟨trivial, fun _ _ _ => trivial⟩
theorem calm_getMem : Calm I getMem := fun _ => ⟨trivial, fun _ _ _ => trivial⟩

theorem calm_halt {e : Stop} (h : e ≠ .freed) : Calm I (halt e : K α) := fun _ => ⟨h, fun r => r.elim⟩

theorem calm_kpanic {msg : String} : Calm I (kpanic msg : K α) := calm_halt nofun

theorem calm_modMem {g : Mem → Mem} (h : ∀ m, (g m).ftable = m.ftable ∧
    (g m).ptable = m.ptable ∧ (g m).pipes = m.pipes) : Calm I (modMem g) := by
  intro s
  refine ⟨trivial, ?_⟩
  intro m s' hr
  cases hr
  exact ⟨h s.mem, fun _ _ _ => trivial⟩

theorem calm_getInode {k : Fin NINODE} : Calm I (getInode k) :=
  calm_bind calm_getMem fun _ => calm_pure

theorem calm_modInode {k : Fin NINODE} {g : Inode → Inode} : Calm I (modInode k g) :=
  calm_modMem fun _ => ⟨rfl, rfl, rfl⟩

theorem calm_modDin {k : Fin NINODE} {g : Dinode → Dinode} : Calm I (modDin k g) := calm_modInode

theorem calm_getSb : Calm I getSb := calm_bind calm_getMem fun _ => calm_pure

end Rules

/-! ## Blocks -/

section Blocks

variable {I : Prop} {ip : Fin NINODE} {src : Nat → UInt8} {off n : UInt32}

theorem calm_readsb : Calm I readsb :=
  calm_bind calm_bread fun _ => calm_bind calm_brelse fun _ => calm_pure

theorem calm_bzero {b : Nat} : Calm I (bzero b) :=
  calm_bind calm_bread fun _ => calm_bind calm_bstore fun _ =>
    calm_bind calm_logWrite fun _ => calm_brelse

theorem calm_ballocLoop {sb : Superblock} (r b) : Calm I (ballocLoop sb r b) := by
  induction r generalizing b with
  | zero => exact calm_kpanic
  | succ r ih =>
    refine calm_ite (calm_bind calm_bread fun d => ?_) calm_kpanic
    cases scanBits sb d b BPB 0 with
    | some bi =>
      exact calm_bind calm_bstore fun _ => calm_bind calm_logWrite fun _ =>
        calm_bind calm_brelse fun _ => calm_bind calm_bzero fun _ => calm_pure
    | none => exact calm_bind calm_brelse fun _ => ih _

theorem calm_balloc : Calm I balloc :=
  calm_bind calm_getSb fun _ => calm_bind (calm_ballocLoop _ _) fun _ => calm_pure

theorem calm_bfree {b : UInt32} : Calm I (bfree b) := by
  refine calm_bind calm_readsb fun sb => calm_bind (calm_modMem fun _ => ⟨rfl, rfl, rfl⟩) fun _ =>
    calm_bind calm_bread fun d => calm_ite ?_ calm_kpanic
  exact calm_bind calm_bstore fun _ => calm_bind calm_logWrite fun _ => calm_brelse

/-! ## Inodes -/

theorem calm_iget {dev inum : Nat} : Calm I (iget dev inum) := by
  refine calm_bind calm_getMem fun m => ?_
  cases firstIdx (fun k : Fin NINODE => decide (0 < (m.icache k).ref) &&
      decide ((m.icache k).dev = dev) && decide ((m.icache k).inum = inum)) with
  | some k => exact calm_bind calm_modInode fun _ => calm_pure
  | none =>
    cases firstIdx (fun k : Fin NINODE => decide ((m.icache k).ref = 0)) with
    | some k => exact calm_bind calm_modInode fun _ => calm_pure
    | none => exact calm_kpanic

theorem calm_iallocLoop {dev : Nat} {sb : Superblock} {type : Int16} (r n) : Calm I (iallocLoop dev sb type r n) := by
  induction r generalizing n with
  | zero => exact calm_kpanic
  | succ r ih =>
    refine calm_ite (calm_bind calm_bread fun d => calm_ite ?_ ?_) calm_kpanic
    · exact calm_bind calm_input fun _ => calm_bind calm_bstore fun _ =>
        calm_bind calm_logWrite fun _ => calm_bind calm_brelse fun _ => calm_iget
    · exact calm_bind calm_brelse fun _ => ih _

theorem calm_ialloc {dev : Nat} {type : Int16} : Calm I (ialloc dev type) :=
  calm_bind calm_getSb fun _ => calm_iallocLoop _ _

theorem calm_iupdate : Calm I (iupdate ip) :=
  calm_bind calm_getInode fun _ => calm_bind calm_getSb fun _ => calm_bind calm_bread fun _ =>
    calm_bind calm_bstore fun _ => calm_bind calm_logWrite fun _ => calm_brelse

theorem calm_idup : Calm I (idup ip) := calm_bind calm_modInode fun _ => calm_pure

theorem calm_ilockRead : Calm I (ilockRead ip) :=
  calm_bind calm_getInode fun _ => calm_ite calm_pure <|
    calm_bind calm_getSb fun _ => calm_bind calm_bread fun _ => calm_bind calm_modDin fun _ =>
      calm_bind calm_brelse fun _ => calm_bind calm_modInode fun _ => calm_ite calm_kpanic calm_pure

theorem calm_ilock : Calm I (ilock ip) :=
  calm_bind calm_getInode fun _ => calm_ite calm_kpanic <| calm_ite (calm_halt nofun) <|
    calm_bind calm_modInode fun _ => calm_ilockRead

theorem calm_iunlock : Calm I (iunlock ip) :=
  calm_bind calm_getInode fun _ => calm_ite calm_kpanic calm_modInode

theorem calm_bmapIndirect : Calm I (bmapIndirect ip) :=
  calm_bind calm_getInode fun _ => calm_ite
    (calm_bind calm_balloc fun _ => calm_bind calm_modDin fun _ => calm_pure) calm_pure

theorem calm_bmapEntry {ib : UInt32} {j : Nat} : Calm I (bmapEntry ib j) :=
  calm_bind calm_bread fun _ => calm_ite
    (calm_bind calm_balloc fun _ => calm_bind calm_bstore fun _ => calm_bind calm_logWrite fun _ =>
      calm_bind calm_brelse fun _ => calm_pure)
    (calm_bind calm_brelse fun _ => calm_pure)

theorem calm_bmap {bn : Nat} : Calm I (bmap ip bn) :=
  calm_bind calm_getInode fun _ => calm_ite
    (calm_ite (calm_bind calm_balloc fun _ => calm_bind calm_modDin fun _ => calm_pure) calm_pure) <|
    calm_ite (calm_bind calm_bmapIndirect fun _ => calm_bmapEntry) calm_kpanic

theorem calm_itruncDirect (r k) : Calm I (itruncDirect ip r k) := by
  induction r generalizing k with
  | zero => exact calm_pure
  | succ r ih =>
    exact calm_bind calm_getInode fun _ => calm_ite (ih _) <|
      calm_bind calm_bfree fun _ => calm_bind calm_modDin fun _ => ih _

theorem calm_itruncEntries {d : Block} (r j) : Calm I (itruncEntries d r j) := by
  induction r generalizing j with
  | zero => exact calm_pure
  | succ r ih => exact calm_ite (ih _) (calm_bind calm_bfree fun _ => ih _)

theorem calm_itrunc : Calm I (itrunc ip) := by
  refine calm_bind (calm_itruncDirect _ _) fun _ => calm_bind ?_ fun _ =>
    calm_bind calm_modDin fun _ => calm_iupdate
  exact calm_bind calm_getInode fun _ => calm_ite calm_pure <|
    calm_bind calm_bread fun _ => calm_bind (calm_itruncEntries _ _) fun _ =>
      calm_bind calm_brelse fun _ => calm_bind calm_bfree fun _ => calm_modDin

theorem calm_iput : Calm True (iput ip) := by
  refine calm_bind (fun _ => ⟨⟨rfl, trivial⟩, fun _ _ _ => trivial⟩) fun _ =>
    calm_bind (calm_bind calm_getInode fun _ => calm_ite ?_ calm_pure) fun _ => calm_modInode
  exact calm_bind calm_getInode fun _ => calm_ite calm_kpanic <|
    calm_bind calm_modInode fun _ => calm_bind calm_itrunc fun _ => calm_bind calm_modDin fun _ =>
      calm_bind calm_iupdate fun _ => calm_modInode

theorem calm_iunlockput : Calm True (iunlockput ip) := calm_bind calm_iunlock fun _ => calm_iput

/-! ## Reading and writing -/

theorem calm_inputBytes : ∀ n, Calm I (inputBytes n) := by
  intro n
  induction n with
  | zero => exact calm_pure
  | succ n ih => exact calm_bind calm_input fun _ => calm_bind ih fun _ => calm_pure

theorem calm_idereadLoop {n : Nat} (r tot off) : Calm I (idereadLoop n r tot off) := by
  induction r generalizing tot off with
  | zero => exact calm_pure
  | succ r ih =>
    exact calm_ite (calm_bind calm_bread fun _ => calm_bind calm_brelse fun _ =>
      calm_bind (ih _ _) fun _ => calm_pure) calm_pure

theorem calm_idewriteLoop {n : Nat} (r tot off) : Calm I (idewriteLoop src n r tot off) := by
  induction r generalizing tot off with
  | zero => exact calm_pure
  | succ r ih =>
    exact calm_ite (calm_bind calm_bread fun _ => calm_bind calm_bstore fun _ =>
      calm_bind calm_bwrite fun _ => calm_bind calm_brelse fun _ => ih _ _) calm_pure

theorem calm_devRead {i : Inode} : Calm I (devRead i off n) := by
  refine calm_ite (calm_ite calm_pure ?_) <| calm_ite (calm_ite calm_pure ?_) <|
    calm_ite (calm_ite calm_pure calm_pure) calm_pure
  · exact calm_bind calm_input fun _ => calm_bind (calm_inputBytes _) fun _ => calm_pure
  · exact calm_bind (calm_ite (calm_idereadLoop _ _ _) (calm_inputBytes _)) fun _ => calm_pure

theorem calm_devWrite {i : Inode} : Calm I (devWrite i src off n) :=
  calm_ite calm_pure <| calm_ite (calm_ite calm_pure <| calm_ite calm_pure <|
    calm_bind (calm_ite (calm_idewriteLoop _ _ _) calm_pure) fun _ => calm_pure) <|
    calm_ite calm_pure calm_pure

theorem calm_readiLoop {n : Nat} (r tot off) : Calm I (readiLoop ip n r tot off) := by
  induction r generalizing tot off with
  | zero => exact calm_pure
  | succ r ih =>
    exact calm_ite (calm_bind calm_bmap fun _ => calm_bind calm_bread fun _ =>
      calm_bind calm_brelse fun _ => calm_bind (ih _ _) fun _ => calm_pure) calm_pure

theorem calm_readi : Calm I (readi ip off n) :=
  calm_bind calm_getInode fun _ => calm_ite calm_devRead <| calm_ite calm_pure <|
    calm_bind (calm_readiLoop _ _ _) fun _ => calm_pure

theorem calm_writeiLoop {n : Nat} (r tot off) : Calm I (writeiLoop ip src n r tot off) := by
  induction r generalizing tot off with
  | zero => exact calm_pure
  | succ r ih =>
    exact calm_ite (calm_bind calm_bmap fun _ => calm_bind calm_bread fun _ =>
      calm_bind calm_bstore fun _ => calm_bind calm_logWrite fun _ =>
        calm_bind calm_brelse fun _ => ih _ _) calm_pure

theorem calm_writei : Calm I (writei ip src off n) := by
  refine calm_bind calm_getInode fun _ => calm_ite calm_devWrite <| calm_ite calm_pure <|
    calm_ite calm_pure <| calm_bind (calm_writeiLoop _ _ _) fun _ => ?_
  exact calm_bind calm_modDin fun _ => calm_bind calm_input fun _ => calm_bind calm_modDin fun _ =>
    calm_bind calm_iupdate fun _ => calm_pure

end Blocks

/-! ## Directories and paths -/

section Paths

variable {I : Prop} {dp ip : Fin NINODE} {name : List UInt8} {p : Fin NPROC} {path : List UInt8}

theorem calm_dirlookupLoop (r off) : Calm I (dirlookupLoop dp name r off) := by
  induction r generalizing off with
  | zero => exact calm_pure
  | succ r ih =>
    exact calm_bind calm_getInode fun _ => calm_ite
      (calm_bind calm_readi fun _ => calm_ite calm_kpanic <| calm_ite (ih _) <| calm_ite
        (calm_bind calm_iget fun _ => calm_pure) (ih _)) calm_pure

theorem calm_dirlookup : Calm I (dirlookup dp name) :=
  calm_bind calm_getInode fun _ => calm_ite calm_kpanic (calm_dirlookupLoop _ _)

theorem calm_dirlinkSlot (r off) : Calm I (dirlinkSlot dp r off) := by
  induction r generalizing off with
  | zero => exact calm_pure
  | succ r ih =>
    exact calm_bind calm_getInode fun _ => calm_ite
      (calm_bind calm_readi fun _ => calm_ite calm_kpanic <| calm_ite calm_pure (ih _)) calm_pure

theorem calm_dirlink {n : Nat} : Calm True (dirlink dp name n) := by
  refine calm_bind calm_dirlookup fun r => ?_
  cases r with
  | some x => exact calm_bind calm_iput fun _ => calm_pure
  | none =>
    exact calm_bind calm_getInode fun _ => calm_bind (calm_dirlinkSlot _ _) fun _ =>
      calm_bind calm_writei fun _ => calm_ite calm_kpanic calm_pure

theorem calm_namexLoop {parent : Bool} (r ip path name) : Calm True (namexLoop parent r ip path name) := by
  induction r generalizing ip path name with
  | zero => exact calm_pure
  | succ r ih =>
    rw [namexLoop]
    cases skipelem path with
    | none => exact calm_ite (calm_bind calm_iput fun _ => calm_pure) calm_pure
    | some e =>
      refine calm_bind calm_ilock fun _ => calm_bind calm_getInode fun _ => calm_ite
        (calm_bind calm_iunlockput fun _ => calm_pure) <| calm_ite
        (calm_bind calm_iunlock fun _ => calm_pure) <| calm_bind calm_dirlookup fun r => ?_
      cases r with
      | none => exact calm_bind calm_iunlockput fun _ => calm_pure
      | some next => exact calm_bind calm_iunlockput fun _ => ih _ _ _

theorem calm_namex {parent : Bool} : Calm True (namex p path parent) := by
  refine calm_bind (calm_ite calm_iget <| calm_bind calm_getMem fun m => ?_) fun _ =>
    calm_namexLoop _ _ _ _
  cases (m.ptable p).cwd with
  | some ip => exact calm_idup
  | none => exact calm_kpanic

theorem calm_namei : Calm True (namei p path) := calm_bind calm_namex fun _ => calm_pure

theorem calm_nameiparent : Calm True (nameiparent p path) := calm_namex

theorem calm_isdirempty : Calm I (isdirempty dp) := by
  have hloop : ∀ r off, Calm I (isdiremptyLoop dp r off) := by
    intro r
    induction r with
    | zero => intro _; exact calm_pure
    | succ r ih =>
      intro _
      exact calm_bind calm_getInode fun _ => calm_ite
        (calm_bind calm_readi fun _ => calm_ite calm_kpanic <| calm_ite calm_pure (ih _)) calm_pure
  exact calm_bind calm_getInode fun _ => hloop _ _

theorem calm_unlinkable : Calm I (unlinkable ip) :=
  calm_bind calm_getInode fun _ => calm_ite calm_isdirempty calm_pure

theorem calm_createDots : Calm True (createDots dp ip) :=
  calm_bind calm_modDin fun _ => calm_bind calm_iupdate fun _ => calm_bind calm_getInode fun _ =>
    calm_bind calm_dirlink fun _ => calm_ite calm_kpanic <| calm_bind calm_getInode fun _ =>
      calm_bind calm_dirlink fun _ => calm_ite calm_kpanic calm_pure

theorem calm_createNew {type major minor : Int16} : Calm True (createNew dp name type major minor) :=
  calm_bind calm_getInode fun _ => calm_bind calm_ialloc fun _ => calm_bind calm_ilock fun _ =>
    calm_bind calm_modDin fun _ => calm_bind calm_iupdate fun _ =>
      calm_bind (calm_ite calm_createDots calm_pure) fun _ => calm_bind calm_getInode fun _ =>
        calm_bind calm_dirlink fun _ => calm_ite calm_kpanic <|
          calm_bind calm_iunlockput fun _ => calm_pure

theorem calm_create {type major minor : Int16} : Calm True (create p path type major minor) := by
  refine calm_bind calm_nameiparent fun r => ?_
  cases r with
  | none => exact calm_pure
  | some x =>
    refine calm_bind calm_ilock fun _ => calm_bind calm_dirlookup fun r => ?_
    cases r with
    | some y =>
      exact calm_bind calm_iunlockput fun _ => calm_bind calm_ilock fun _ =>
        calm_bind calm_getInode fun _ => calm_ite calm_pure <|
          calm_bind calm_iunlockput fun _ => calm_pure
    | none => exact calm_createNew

theorem calm_execImage : Calm I (execImage ip) := by
  have hload : ∀ r (off sz : UInt32) i, Calm I (loaduvmLoop ip off sz r i) := by
    intro r
    induction r with
    | zero => intro _ _ _; exact calm_pure
    | succ r ih =>
      intro _ _ _
      exact calm_ite (calm_bind calm_readi fun _ => calm_ite calm_pure (ih _ _ _)) calm_pure
  have hseg : ∀ r off sz, Calm I (execLoad ip r off sz) := by
    intro r
    induction r with
    | zero => intro _ _; exact calm_pure
    | succ r ih =>
      intro _ _
      refine calm_bind calm_readi fun _ => calm_ite calm_pure <| calm_ite (ih _ _) <|
        calm_ite calm_pure <| calm_bind ?_ fun _ => calm_ite calm_pure <|
          calm_bind ?_ fun _ => calm_ite (ih _ _) calm_pure
      · exact calm_ite calm_pure <| calm_ite calm_pure <| calm_bind calm_input fun _ => calm_pure
      · exact calm_ite calm_kpanic (hload _ _ _ _)
  exact calm_bind calm_readi fun _ => calm_bind (calm_ite (calm_inputBytes _) calm_pure) fun _ =>
    calm_ite calm_pure <| calm_ite calm_pure <| calm_bind calm_input fun _ =>
      calm_ite calm_pure (hseg _ _ _)

end Paths

end Xv6Sys
