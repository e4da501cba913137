import Xv6.CallRulesProofs
import Xv6.RefCountProofs

/-!
# The file table — who counts what

An entry of the file table is counted by the descriptors that point to it, and holds an inode or
one end of a pipe from the moment it is filled in until its count falls to zero. `Files` is the
invariant. Within a call it holds with a correction: `E f` is by how much the count of entry `f`
is ahead of its descriptors, and `U` are the entries that have been allocated and not yet filled
in. Between calls the correction is zero and `U` is empty.

The part of the invariant about what the entries hold is `Ends`. It says which pages are pipes:
those that some entry is an end of. It also balances the books: an entry has been filled in once
more often than it has been given back exactly when it holds something now, and the same for pages.
-/

namespace Xv6Files

open CmdProg ByteBuf Xv6Disk Xv6Kernel Xv6Fs Xv6Sys RefCount Function

/-- The descriptors of all processes. -/
def table (m : Mem) : Fin NPROC × Fin NOFILE → Option (Fin NFILE) :=
  fun x => (m.ptable x.1).ofile x.2

/-- How many descriptors point to entry `f`. -/
def descriptors (m : Mem) (f : Fin NFILE) : Nat := refs (table m) f

/-- Is that end of the pipe open? -/
def openEnd (x : Pipe) (writable : Bool) : Bool := if writable then x.writeopen else x.readopen

/-- Entry `x` is an end of the pipe in `page`. -/
def EndOf (x : File) (page : Nat) (writable : Bool) : Prop :=
  x.type = .pipe ∧ x.pipe = some page ∧ x.writable = writable

/-- What the entries hold. -/
structure Ends (s : LState) : Prop where
  inode : ∀ f, (s.mem.ftable f).type = .inode → (s.mem.ftable f).ip ≠ none
  pipe : ∀ f, (s.mem.ftable f).type = .pipe → ∃ page x, (s.mem.ftable f).pipe = some page ∧
    s.mem.pipes page = some x ∧ openEnd x (s.mem.ftable f).writable = true
  uniq : ∀ f g, (s.mem.ftable f).type = .pipe → (s.mem.ftable g).type = .pipe →
    (s.mem.ftable f).pipe = (s.mem.ftable g).pipe →
    (s.mem.ftable f).writable = (s.mem.ftable g).writable → f = g
  page : ∀ page x, s.mem.pipes page = some x → (∃ w, openEnd x w = true) ∧
    ∀ w, openEnd x w = true → ∃ f, EndOf (s.mem.ftable f) page w
  files : ∀ f, s.passed (.released f) + (if (s.mem.ftable f).type = .none then 0 else 1) = s.passed (.opened f)
  pages : ∀ page, s.passed (.kfree page) + (if s.mem.pipes page = none then 0 else 1) = s.passed (.kalloc page)

/-- **The file table**, with the correction `E` and the entries `U` not yet filled in. -/
structure Files (E : Fin NFILE → Int) (U : Set (Fin NFILE)) (s : LState) : Prop where
  count : ∀ f, (s.mem.ftable f).ref = descriptors s.mem f + E f
  kind : ∀ f, (s.mem.ftable f).type = .none ↔ (s.mem.ftable f).ref = 0 ∨ f ∈ U
  ends : Ends s

/-- The fields of an entry that say what it holds. -/
def face (x : File) : FdType × Option Nat × Bool × Option (Fin NINODE) :=
  (x.type, x.pipe, x.writable, x.ip)

/-! ## Changes of what the entries hold -/

section Ends

variable {s s' : LState} {f f0 f1 : Fin NFILE} {page : Nat} {x y : File} {w : Bool}

section

variable (h : Ends s)
include h

theorem Ends.keep (hf : ∀ f, face (s'.mem.ftable f) = face (s.mem.ftable f))
    (hp : s'.mem.pipes = s.mem.pipes) (hpass : ∀ e, e ≠ .iput → s'.passed e = s.passed e) : Ends s' := by
  obtain ⟨h1, h2, h3, h4, h5, h6⟩ := h
  simp only [face, Prod.mk.injEq] at hf
  constructor <;> simp only [hp, EndOf] at * <;> grind

/-- An entry gets an inode. -/
theorem Ends.fill (h0 : (s.mem.ftable f).type = .none)
    (hf : s'.mem.ftable = update s.mem.ftable f y) (hy : y.type = .inode)
    (hip : y.ip ≠ none) (hp : s'.mem.pipes = s.mem.pipes)
    (hpass : ∀ e, e ≠ .iput → s'.passed e = s.passed e + if e = .opened f then 1 else 0) : Ends s' := by
  obtain ⟨h1, h2, h3, h4, h5, h6⟩ := h
  constructor <;> simp only [hp, hf, EndOf, update_apply] at * <;> grind

/-- An entry gives its inode back. -/
theorem Ends.release (h0 : (s.mem.ftable f).type = .inode)
    (hf : s'.mem.ftable = update s.mem.ftable f y) (hy : y.type = .none) (hp : s'.mem.pipes = s.mem.pipes)
    (hpass : ∀ e, e ≠ .iput → s'.passed e = s.passed e + if e = .released f then 1 else 0) : Ends s' := by
  obtain ⟨h1, h2, h3, h4, h5, h6⟩ := h
  constructor <;> simp only [hp, hf, EndOf, update_apply] at * <;> grind

/-- Two entries become the ends of a new pipe. -/
theorem Ends.newPipe {y0 y1 : File} {z : Pipe} (hne : f0 ≠ f1)
    (h0 : (s.mem.ftable f0).type = .none) (h1 : (s.mem.ftable f1).type = .none)
    (hpage : s.mem.pipes page = none) (hf : s'.mem.ftable = update (update s.mem.ftable f0 y0) f1 y1)
    (hy0 : EndOf y0 page false) (hy1 : EndOf y1 page true)
    (hp : s'.mem.pipes = update s.mem.pipes page (some z)) (hz : ∀ w, openEnd z w = true)
    (hpass : ∀ e, e ≠ .iput → s'.passed e = s.passed e +
      if e = .opened f0 ∨ e = .opened f1 ∨ e = .kalloc page then 1 else 0) : Ends s' := by
  obtain ⟨h1, h2, h3, h4, h5, h6⟩ := h
  obtain ⟨ht0, hp0, hw0⟩ := hy0
  obtain ⟨ht1, hp1, hw1⟩ := hy1
  have hold : ∀ q z, s.mem.pipes q = some z → q ≠ page := by
    rintro q z hq rfl
    rw [hpage] at hq
    cases hq
  refine ⟨?_, ?_, ?_, ?_, ?_, ?_⟩ <;> simp only [hp, hf, EndOf, update_apply] at *
  case refine_2 =>
    intro f hpf
    by_cases hf1 : f = f1
    · rw [if_pos hf1] at hpf ⊢
      exact ⟨page, z, hp1, if_pos rfl, hz _⟩
    · rw [if_neg hf1] at hpf ⊢
      by_cases hf0 : f = f0
      · rw [if_pos hf0] at hpf ⊢
        exact ⟨page, z, hp0, if_pos rfl, hz _⟩
      · rw [if_neg hf0] at hpf ⊢
        obtain ⟨q, z', hq, hz', hopen⟩ := h2 f hpf
        exact ⟨q, z', hq, by rw [if_neg (hold q z' hz')]; exact hz', hopen⟩
  case refine_4 =>
    intro q z' hq
    split_ifs at hq with hqp
    · cases hq
      refine ⟨⟨true, hz true⟩, fun w _ => ?_⟩
      cases w with
      | true => exact ⟨f1, by rw [if_pos rfl]; exact ⟨ht1, hqp ▸ hp1, hw1⟩⟩
      | false => exact ⟨f0, by rw [if_neg hne, if_pos rfl]; exact ⟨ht0, hqp ▸ hp0, hw0⟩⟩
    · obtain ⟨hsome, hends⟩ := h4 q z' hq
      refine ⟨hsome, fun w hw => ?_⟩
      obtain ⟨f, hft, hfp, hfw⟩ := hends w hw
      refine ⟨f, ?_⟩
      rw [if_neg (by rintro rfl; simp_all), if_neg (by rintro rfl; simp_all)]
      exact ⟨hft, hfp, hfw⟩
  all_goals grind

/-- Another entry that is an end of the same pipe is the other end. -/
theorem Ends.other {g : Fin NFILE} {v : Bool} (hend : EndOf (s.mem.ftable f) page w)
    (hg : EndOf (s.mem.ftable g) page v) (hne : g ≠ f) : v = !w := by
  rcases Bool.eq_or_eq_not v w with rfl | hv
  · exact absurd (h.uniq g f hg.1 hend.1 (hg.2.1.trans hend.2.1.symm)
      (hg.2.2.trans hend.2.2.symm)) hne
  · exact hv

/-- An entry gives back its end of a pipe: the pipe stays for the other end, or goes with the last. -/
theorem Ends.closeEnd {z : Pipe} {x : Option Pipe} (hend : EndOf (s.mem.ftable f) page w)
    (hz : s.mem.pipes page = some z) (hf : s'.mem.ftable = update s.mem.ftable f y) (hy : y.type = .none)
    (hp : s'.mem.pipes = update s.mem.pipes page x)
    (hx : ∀ z', x = some z' → openEnd z' w = false ∧ openEnd z' (!w) = true)
    (hlast : x = none ↔ openEnd z (!w) = false) (hpass : ∀ e, e ≠ .iput → s'.passed e = s.passed e +
      if e = .released f ∨ e = .kfree page ∧ x = none then 1 else 0) : Ends s' := by
  have hsib := fun g v hg hne => h.other (g := g) (v := v) hend hg hne
  obtain ⟨h1, h2, h3, h4, h5, h6⟩ := h
  refine ⟨?_, ?_, ?_, ?_, ?_, ?_⟩ <;> simp only [hp, hf, update_apply] at *
  case refine_2 =>
    intro g hpg
    by_cases hgf : g = f
    · rw [if_pos hgf, hy] at hpg
      cases hpg
    · rw [if_neg hgf] at hpg ⊢
      obtain ⟨q, z1, hq, hz1, hopen1⟩ := h2 g hpg
      by_cases hqp : q = page
      · -- a second entry on the same page is the other end, so this was not the last
        have hv := hsib g _ ⟨hpg, hqp ▸ hq, rfl⟩ hgf
        rw [hqp, hz] at hz1
        cases hz1
        cases x with
        | none =>
          rw [hv, hlast.mp rfl] at hopen1
          cases hopen1
        | some z' => exact ⟨q, z', hq, if_pos hqp, by rw [hv]; exact (hx z' rfl).2⟩
      · exact ⟨q, z1, hq, by rw [if_neg hqp]; exact hz1, hopen1⟩
  case refine_4 =>
    intro q z1 hq
    split_ifs at hq with hqp
    · obtain ⟨hshut, hopen⟩ := hx z1 hq
      have hopen0 : openEnd z (!w) = true :=
        Bool.eq_true_of_not_eq_false fun hc => nomatch hq.symm.trans (hlast.mpr hc)
      refine ⟨⟨!w, hopen⟩, fun v hv => ?_⟩
      have hvw : v = !w := (Bool.eq_or_eq_not v w).resolve_left (by rintro rfl; simp_all)
      obtain ⟨g, hg⟩ := (h4 page z hz).2 (!w) hopen0
      refine ⟨g, ?_⟩
      rw [if_neg, hvw, hqp]
      · exact hg
      · rintro rfl
        exact absurd (hend.2.2.symm.trans hg.2.2) (by simp)
    · obtain ⟨hsome, hends⟩ := h4 q z1 hq
      refine ⟨hsome, fun v hv => ?_⟩
      obtain ⟨g, hg⟩ := hends v hv
      refine ⟨g, ?_⟩
      rw [if_neg]
      · exact hg
      · rintro rfl
        exact hqp (Option.some.inj (hg.2.1.symm.trans hend.2.1))
  all_goals obtain ⟨ht, hpf, hwf⟩ := hend
  all_goals grind

/-- Bytes go into a pipe or out of it. -/
theorem Ends.data {z z' : Pipe} (hz : s.mem.pipes page = some z) (hf : s'.mem.ftable = s.mem.ftable)
    (hp : s'.mem.pipes = update s.mem.pipes page (some z'))
    (hz' : ∀ w, openEnd z' w = openEnd z w) (hpass : s'.passed = s.passed) : Ends s' := by
  obtain ⟨h1, h2, h3, h4, h5, h6⟩ := h
  constructor <;> simp only [hp, hf, hpass, EndOf, update_apply] at * <;> grind

end

end Ends

/-! ## Changes of the counts -/

/-- The tables that `Files` looks at are the same. -/
structure Alike (s s' : LState) : Prop where
  ftable : s'.mem.ftable = s.mem.ftable
  ptable : s'.mem.ptable = s.mem.ptable
  pipes : s'.mem.pipes = s.mem.pipes
  passed : ∀ e, e ≠ .iput → s'.passed e = s.passed e

section Counts

variable {E : Fin NFILE → Int} {U V : Set (Fin NFILE)} {s s' : LState} {f : Fin NFILE}
  {p : Fin NPROC} {fd : Fin NOFILE}

theorem alike_of_same (h : Same s s') : Alike s s' := ⟨h.ftable, h.ptable, h.pipes, h.passed⟩

theorem Files.keep (h : Files E U s) (hf : s'.mem.ftable = s.mem.ftable)
    (ht : table s'.mem = table s.mem) (hp : s'.mem.pipes = s.mem.pipes)
    (hpass : ∀ e, e ≠ .iput → s'.passed e = s.passed e) : Files E U s' := by
  refine ⟨?_, ?_, h.ends.keep (fun f => by rw [hf]) hp hpass⟩
  · intro f
    rw [hf, descriptors, ht]
    exact h.count f
  · rw [hf]
    exact h.kind

theorem Files.alike (h : Files E U s) (ha : Alike s s') : Files E U s' :=
  h.keep ha.ftable (by unfold table; rw [ha.ptable]) ha.pipes ha.passed

theorem single_self (f : Fin NFILE) (d : Int) : (Pi.single f d : Fin NFILE → Int) f = d :=
  Pi.single_eq_same (M := fun _ => Int) f d

theorem single_ne {g : Fin NFILE} (h : g ≠ f) (d : Int) : (Pi.single f d : Fin NFILE → Int) g = 0 :=
  Pi.single_eq_of_ne (M := fun _ => Int) h d

/-- One entry changes: its count by `d`, and what it holds. -/
theorem Files.change {y : File} {d : Int} (h : Files E U s) (he : Ends s')
    (hf : s'.mem.ftable = update s.mem.ftable f y) (hd : y.ref = (s.mem.ftable f).ref + d)
    (ht : table s'.mem = table s.mem) (hkind : y.type = .none ↔ y.ref = 0 ∨ f ∈ V)
    (hU : ∀ g, g ≠ f → (g ∈ V ↔ g ∈ U)) : Files (E + Pi.single f d) V s' := by
  refine ⟨?_, ?_, he⟩
  · intro g
    show _ = (descriptors s'.mem g : Int) + (E g + (Pi.single f d : Fin NFILE → Int) g)
    rw [descriptors, ht, hf]
    have hcount := h.count g
    rw [descriptors] at hcount
    rw [update_apply]
    split_ifs with hg
    · subst hg
      rw [single_self, hd, hcount]
      omega
    · rw [single_ne hg, hcount]
      omega
  · intro g
    rw [hf, update_apply]
    split_ifs with hg
    · subst hg
      exact hkind
    · rw [hU g hg]
      exact h.kind g

/-- The count of one entry changes, and not what it holds. -/
theorem Files.setRef {y : File} {d : Int} (h : Files E U s) (hy : face y = face (s.mem.ftable f))
    (hd : y.ref = (s.mem.ftable f).ref + d) (hkind : y.type = .none ↔ y.ref = 0 ∨ f ∈ V)
    (hU : ∀ g, g ≠ f → (g ∈ V ↔ g ∈ U)) : Files (E + Pi.single f d) V (setFile s f y) := by
  refine h.change (h.ends.keep (fun g => ?_) rfl fun _ _ => rfl) rfl hd rfl hkind hU
  show face (update s.mem.ftable f y g) = _
  rw [update_apply]
  split_ifs with hg
  · subst hg
    rw [hy]
  · rfl

theorem table_setFd {o : Option (Fin NFILE)} : table (setProc s p (setFd (s.mem.ptable p) fd o)).mem
      = update (table s.mem) (p, fd) o := by
  funext ⟨q, c⟩
  show (update s.mem.ptable p (setFd (s.mem.ptable p) fd o) q).ofile c = _
  rw [update_apply]
  split_ifs with hq
  · subst hq
    show update (s.mem.ptable q).ofile fd o c = _
    by_cases hc : c = fd
    · rw [hc, update_self, update_self]
    · rw [update_of_ne hc, update_of_ne (fun h => hc (Prod.mk.inj h).2)]
      rfl
  · rw [update_of_ne (fun h => hq (Prod.mk.inj h).1)]
    rfl

/-- A free descriptor is set. -/
theorem Files.install (h : Files E U s) (hfree : (s.mem.ptable p).ofile fd = none) :
    Files (E - Pi.single f 1) U (setProc s p (setFd (s.mem.ptable p) fd (some f))) := by
  refine ⟨?_, h.kind, h.ends.keep (fun _ => rfl) rfl fun _ _ => rfl⟩
  intro g
  show (s.mem.ftable g).ref = (refs (table _) g : Int) + (E g - (Pi.single f 1 : Fin NFILE → Int) g)
  rw [table_setFd, refs_set (t := table s.mem) (i := (p, fd)) hfree, h.count g, descriptors]
  by_cases hg : g = f
  · rw [hg, single_self, if_pos rfl]
    push_cast
    omega
  · rw [single_ne hg, if_neg (Ne.symm hg)]
    push_cast
    omega

/-- A descriptor is cleared. -/
theorem Files.uninstall (h : Files E U s) (hset : (s.mem.ptable p).ofile fd = some f) :
    Files (E + Pi.single f 1) U (setProc s p (setFd (s.mem.ptable p) fd none)) := by
  refine ⟨?_, h.kind, h.ends.keep (fun _ => rfl) rfl fun _ _ => rfl⟩
  intro g
  show (s.mem.ftable g).ref = (refs (table _) g : Int) + (E g + (Pi.single f 1 : Fin NFILE → Int) g)
  have hclear := refs_clear (t := table s.mem) (i := (p, fd)) (g := g) hset
  rw [table_setFd, h.count g, descriptors, ← hclear]
  by_cases hg : g = f
  · rw [hg, single_self, if_pos rfl]
    push_cast
    omega
  · rw [single_ne hg, if_neg (Ne.symm hg)]
    push_cast
    omega

end Counts

end Xv6Files
