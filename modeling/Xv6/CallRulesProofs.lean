import Xv6.FsFrameProofs
import Xv6.KernelRulesProofs

/-!
# Rules for the code of `file.c` and `sysfile.c`

The calls are bookkeeping on the file table and the process table around calls of `fs.c`. The rules
here are for the bookkeeping. They hold for every predicate `P` on commands that is **free**: one
that allows the kernel to look at its tables and to change them. Each rule has the rest of the code as
its premise and gives the state exactly, so that what is proved about a call can ask for anything
else of its commands.
-/

namespace Xv6Sys

open CmdProg ByteBuf Xv6Disk Xv6Kernel Xv6Fs Function

/-! ## Names for the changes of a state -/

/-- The state after a change of entry `f` of the file table. -/
def setFile (s : LState) (f : Fin NFILE) (x : File) : LState :=
  { s with mem := { s.mem with ftable := update s.mem.ftable f x } }

/-- The state after a change of process `p`. -/
def setProc (s : LState) (p : Fin NPROC) (x : Proc) : LState :=
  { s with mem := { s.mem with ptable := update s.mem.ptable p x } }

/-- The state after a change of a page. -/
def setPage (s : LState) (page : Nat) (o : Option Pipe) : LState :=
  { s with mem := { s.mem with pipes := update s.mem.pipes page o } }

/-- The process with `o` in descriptor `fd`. -/
def setFd (x : Proc) (fd : Fin NOFILE) (o : Option (Fin NFILE)) : Proc :=
  { x with ofile := update x.ofile fd o }

theorem fd_lt {fd : Int32} (h : 0 ≤ fd.toInt ∧ fd.toInt.toNat < NOFILE) : fd.toInt.toNat < NOFILE := h.2

/-- What `argfd` finds. -/
def fdOf (m : Mem) (p : Fin NPROC) (fd : Int32) : Option (Fin NOFILE × Fin NFILE) :=
  if h : 0 ≤ fd.toInt ∧ fd.toInt.toNat < NOFILE then
    ((m.ptable p).ofile ⟨fd.toInt.toNat, fd_lt h⟩).map fun f => (⟨fd.toInt.toNat, fd_lt h⟩, f)
  else none

theorem fdOf_some {m : Mem} {p : Fin NPROC} {fd : Int32} {x : Fin NOFILE × Fin NFILE}
    (h : fdOf m p fd = some x) : (m.ptable p).ofile x.1 = some x.2 := by
  rw [fdOf] at h
  split_ifs at h with hfd
  obtain ⟨f, hf, rfl⟩ := Option.map_eq_some_iff.mp h
  exact hf

/-! ## Rules -/

/-- The commands that the bookkeeping issues are allowed. -/
structure Free (P : Cmd → LState → Prop) : Prop where
  getMem : ∀ s, P .getMem s
  setMem : ∀ m s, P (.setMem m) s
  input : ∀ s, P .input s
  point : ∀ e s, e ≠ .iput → P (.point e) s
  stop : ∀ e s, e ≠ .freed → e ≠ .panic noType → P (.stop e) s

section Rules

variable {α β : Type} {P : Cmd → LState → Prop} {Q : β → LState → Prop} {s : LState}
  {f : Fin NFILE} {p : Fin NPROC}

section

variable (hP : Free P) {k : Unit → K β}
include hP

theorem free_getMem {k : Mem → K β} (h : Meets lstep P Q (k s.mem) s) : Meets lstep P Q (getMem >>= k) s :=
  meets_op (hP.getMem s) rfl h

theorem free_modMem {g : Mem → Mem}
    (h : Meets lstep P Q (k ()) (setTables s (g s.mem))) : Meets lstep P Q (modMem g >>= k) s := by
  exact free_getMem hP (meets_op (hP.setMem _ s) rfl h)

theorem free_input {k : UInt32 → K β} (h : ∀ v, Meets lstep P Q (k v) { s with input := fun n => s.input (n + 1) }) :
    Meets lstep P Q (input >>= k) s :=
  meets_op (hP.input s) rfl (h _)

theorem free_point {e : Point} (he : e ≠ .iput)
    (h : Meets lstep P Q (k ()) (pass s e)) : Meets lstep P Q (point e >>= k) s :=
  meets_op (hP.point e s he) rfl h

theorem free_halt {e : Stop} (h1 : e ≠ .freed) (h2 : e ≠ .panic noType) : Meets lstep P Q (halt e) s :=
  ⟨hP.stop e s h1 h2, fun r => r.elim⟩

theorem free_kpanic {msg : String} (h : msg ≠ noType) : Meets lstep P Q (kpanic msg) s :=
  free_halt hP nofun fun hc => h (Stop.panic.inj hc)

theorem free_getInode {ip : Fin NINODE} {k : Inode → K β}
    (h : Meets lstep P Q (k (s.mem.icache ip)) s) : Meets lstep P Q (getInode ip >>= k) s :=
  free_getMem hP h

theorem free_getFile {k : File → K β} (h : Meets lstep P Q (k (s.mem.ftable f)) s) :
    Meets lstep P Q (getFile f >>= k) s :=
  free_getMem hP h

theorem free_modFile {g : File → File}
    (h : Meets lstep P Q (k ()) (setFile s f (g (s.mem.ftable f)))) : Meets lstep P Q (modFile f g >>= k) s :=
  free_modMem hP h

theorem free_getProc {k : Proc → K β} (h : Meets lstep P Q (k (s.mem.ptable p)) s) :
    Meets lstep P Q (getProc p >>= k) s :=
  free_getMem hP h

theorem free_modProc {g : Proc → Proc}
    (h : Meets lstep P Q (k ()) (setProc s p (g (s.mem.ptable p)))) : Meets lstep P Q (modProc p g >>= k) s :=
  free_modMem hP h

theorem free_argfd {fd : Int32} {k : Option (Fin NOFILE × Fin NFILE) → K β}
    (h : Meets lstep P Q (k (fdOf s.mem p fd)) s) : Meets lstep P Q (argfd p fd >>= k) s := by
  refine meets_bind (free_getProc hP ?_)
  rw [fdOf] at h
  by_cases hfd : 0 ≤ fd.toInt ∧ fd.toInt.toNat < NOFILE
  · rw [dif_pos hfd] at h ⊢
    cases hf : (s.mem.ptable p).ofile ⟨fd.toInt.toNat, hfd.2⟩ with
    | none | some f => rw [hf] at h; exact h
  · rw [dif_neg hfd] at h ⊢
    exact h

end

theorem free_fileInode {x : File} {ip : Fin NINODE} {k : Fin NINODE → K β} (hip : x.ip = some ip)
    (h : Meets lstep P Q (k ip) s) : Meets lstep P Q (fileInode x >>= k) s := by
  rw [fileInode, hip]
  exact h

theorem free_filePipe {x : File} {page : Nat} {k : Nat → K β} (hpage : x.pipe = some page)
    (h : Meets lstep P Q (k page) s) : Meets lstep P Q (filePipe x >>= k) s := by
  rw [filePipe, hpage]
  exact h

/-- **`filealloc`** finds an entry without references. -/
theorem free_filealloc (hP : Free P) {k : Option (Fin NFILE) → K β} (hsome : ∀ f, (s.mem.ftable f).ref = 0 →
      Meets lstep P Q (k (some f)) (setFile s f { s.mem.ftable f with ref := 1 }))
    (hnone : (∀ f, (s.mem.ftable f).ref ≠ 0) → Meets lstep P Q (k none) s) :
    Meets lstep P Q (filealloc >>= k) s := by
  refine meets_bind (free_getMem hP ?_)
  cases hf : firstIdx (fun f : Fin NFILE => decide ((s.mem.ftable f).ref = 0)) with
  | some f =>
    exact free_modFile hP (hsome f (of_decide_eq_true (firstIdx_some hf)))
  | none => exact hnone fun f => of_decide_eq_false (firstIdx_none hf f)

theorem free_filedup (hP : Free P) {k : Fin NFILE → K β} (h : 1 ≤ (s.mem.ftable f).ref → Meets lstep P Q (k f)
      (setFile s f { s.mem.ftable f with ref := (s.mem.ftable f).ref + 1 })) :
    Meets lstep P Q (filedup f >>= k) s := by
  refine meets_bind (free_getFile hP ?_)
  split_ifs with href
  · exact free_kpanic hP (by decide)
  · exact free_modFile hP (h (by omega))

/-- **`fdalloc`** finds a free descriptor. -/
theorem free_fdalloc (hP : Free P) {k : Option (Fin NOFILE) → K β} (hsome : ∀ fd, (s.mem.ptable p).ofile fd = none →
      Meets lstep P Q (k (some fd)) (setProc s p (setFd (s.mem.ptable p) fd (some f))))
    (hnone : (∀ fd, (s.mem.ptable p).ofile fd ≠ none) → Meets lstep P Q (k none) s) :
    Meets lstep P Q (fdalloc p f >>= k) s := by
  refine meets_bind (free_getProc hP ?_)
  cases hf : firstIdx (fun fd : Fin NOFILE => ((s.mem.ptable p).ofile fd).isNone) with
  | some fd =>
    exact free_modProc hP (hsome fd (Option.isNone_iff_eq_none.mp (firstIdx_some hf)))
  | none =>
    refine hnone fun fd hfd => ?_
    have := firstIdx_none hf fd
    rw [hfd] at this
    cases this

end Rules

/-! ## Runs of calls -/

/-- The states that completed calls of running processes lead to, from a state in `init`. Only
    calls that `ok` allows, in the state and by the process, are made. -/
inductive Reach (init : LState → Prop) (ok : LState → Fin NPROC → Call → Prop) : LState → Prop
  | start {s : LState} (h : init s) : Reach init ok s
  | call {s s' : LState} {p : Fin NPROC} {c : Call} {r : Int} (h : Reach init ok s)
      (hp : (s.mem.ptable p).state = .runnable) (hok : ok s p c)
      (hrun : exec (syscall p c) s = .done r s') : Reach init ok s'

/-- **The rule for runs**: what holds at the start and is kept by every call holds in every state
    reached. -/
theorem reach_induction {init I : LState → Prop} {ok : LState → Fin NPROC → Call → Prop}
    {P : Cmd → LState → Prop} (hinit : ∀ s, init s → I s)
    (hcall : ∀ s p c, I s → (s.mem.ptable p).state = .runnable → ok s p c →
      Meets lstep P (fun _ s' => I s') (syscall p c) s) {s : LState} (h : Reach init ok s) : I s := by
  induction h with
  | start h => exact hinit _ h
  | call h hp hok hrun ih => exact meets_run (hcall _ _ _ ih hp hok) hrun

end Xv6Sys
