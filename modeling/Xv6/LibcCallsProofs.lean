import Xv6.ExitStatusProofs
import Xv6.PathMeaningProofs

/-!
# `lib/xv6` — `dup2`, `waitpid` and `readdir`

Three calls that the C library makes out of others. `dup2` works on the descriptors of the process through `close`
and `dup`, `waitpid` reaps children through `wait`, and `readdir` copies the next sixteen bytes of a directory into
memory from `malloc`.
-/

namespace Xv6Lib

open Xv6Disk Xv6Kernel Xv6Fs Xv6World Function List Option

/-! ## `dup2` -/

section Dup2

/-- `proc->ofile`: the files of the open descriptors. -/
abbrev Ofile (F : Type) := Fin NOFILE → Option F

variable {F : Type} {t : Ofile F} {oldd newd : Int} {n : Fin NOFILE} {f : F} {l : List (Fin NOFILE)}

/-- The slot of a descriptor. -/
def slot (fd : Int) : Option (Fin NOFILE) :=
  if h : 0 ≤ fd ∧ fd.toNat < NOFILE then some ⟨fd.toNat, h.2⟩ else none

/-- The file that `argfd` finds. -/
def argfd (t : Ofile F) (fd : Int) : Option F := (slot fd).bind t

/-- The lowest free slot, with the file in it. -/
def fdalloc (t : Ofile F) (f : F) : Option (Fin NOFILE × Ofile F) :=
  (firstIdx fun n => (t n).isNone).map fun n => (n, update t n (some f))

/-- `dup`; for `none` the call returns -1. -/
def dup (t : Ofile F) (fd : Int) : Option (Fin NOFILE × Ofile F) := (argfd t fd).bind (fdalloc t)

/-- What `close` leaves of the table; it fails and changes nothing if the slot is free already. -/
def close (t : Ofile F) (fd : Int) : Ofile F :=
  match slot fd with
  | some n => update t n none
  | none => t

theorem dup_some {r : Fin NOFILE × Ofile F} (h : dup t oldd = some r) :
    t r.1 = none ∧ ∃ f, argfd t oldd = some f ∧ r.2 = update t r.1 (some f) := by
  obtain ⟨f, hf, h⟩ := bind_eq_some_iff.mp h
  obtain ⟨n, hn, rfl⟩ := map_eq_some_iff.mp h
  exact ⟨isNone_iff_eq_none.mp (firstIdx_some hn), f, hf, rfl⟩

/-- The loop of `dup2`: what the last `dup` returned, the extra descriptors in `fdbuf` and the table. A `dup` that
    fails ends the loop, also when `newd` is -1. -/
def dupLoop (oldd newd : Int) (t : Ofile F) (fdbuf : List (Fin NOFILE)) : Int × List (Fin NOFILE) × Ofile F :=
  match h : dup t oldd with
  | none => (-1, fdbuf, t)
  | some r => if r.1 = newd then (newd, fdbuf, r.2) else dupLoop oldd newd r.2 (r.1 :: fdbuf)
termination_by (Finset.univ.filter fun n => t n = none).card
decreasing_by
  obtain ⟨hfree, x, -, ht⟩ := dup_some h
  refine Finset.card_lt_card (Finset.ssubset_iff_of_subset ?_ |>.mpr ⟨r.1, by simpa using hfree, by simp [ht]⟩)
  intro n hn
  simp only [ht, update_apply, Finset.mem_filter, Finset.mem_univ, true_and] at hn ⊢
  split_ifs at hn
  exact hn

/-- `while (--i >= 0) close(fdbuf[i]);` -/
def closeAll : List (Fin NOFILE) → Ofile F → Ofile F
  | [], t => t
  | n :: fdbuf, t => closeAll fdbuf (close t n.val)

/-- `dup2`: its value and the table it leaves. -/
def dup2 (t : Ofile F) (oldd newd : Int) : Int × Ofile F :=
  let r := dupLoop oldd newd (close t newd) []
  (if r.1 = -1 then -1 else 0, closeAll r.2.1 r.2.2)

@[simp] theorem slot_val (n : Fin NOFILE) : slot n.val = some n := by
  have h : 0 ≤ (n.val : Int) ∧ (n.val : Int).toNat < NOFILE := ⟨by omega, by have := n.isLt; omega⟩
  rw [slot, dif_pos h]
  rfl

theorem val_of_slot (h : slot newd = some n) : newd = n.val := by
  rw [slot] at h
  split_ifs at h with hfd
  cases h
  exact (Int.toNat_of_nonneg hfd.1).symm

@[simp] theorem close_val (t : Ofile F) (n : Fin NOFILE) : close t n.val = update t n none := by
  rw [close, slot_val]

theorem argfd_update_ne (h : oldd ≠ n.val) {o : Option F} : argfd (update t n o) oldd = argfd t oldd := by
  refine bind_congr fun m hm => update_of_ne ?_ _ _
  rintro rfl
  exact h (val_of_slot hm)

/-- Closing an extra descriptor gives the table before it. -/
theorem closeAll_extra {o : Option F} (h : t n = none) : closeAll (n :: l) (update t n o) = closeAll l t := by
  rw [closeAll, close_val, update_idem, ← h, update_eq_self]

/-- Closing other descriptors and setting a slot can change places. -/
theorem closeAll_update {o : Option F} (h : n ∉ l) : closeAll l (update t n o) = update (closeAll l t) n o := by
  induction l generalizing t with
  | nil => rfl
  | cons m l ih =>
    rw [mem_cons, not_or] at h
    rw [closeAll, closeAll, close_val, close_val, update_comm h.1, ih h.2]

/-- With `oldd` open and the slot of `newd` free, the loop comes to `newd`. -/
theorem dupLoop_hit (l : List (Fin NOFILE)) (hl : n ∉ l) (ho : argfd t oldd = some f) (hn : t n = none) :
    let r := dupLoop oldd n.val t l
    r.1 = n.val ∧ closeAll r.2.1 r.2.2 = update (closeAll l t) n (some f) := by
  fun_induction dupLoop oldd (n.val : Int) t l with
  | case1 t l hd =>
    rw [dup, ho, bind_some, fdalloc, map_eq_none_iff] at hd
    have := firstIdx_none hd n
    rw [hn] at this
    cases this
  | case2 t l r hd heq =>
    obtain ⟨-, x, hx, ht⟩ := dup_some hd
    have hr : r.1 = n := Fin.ext (by exact_mod_cast heq)
    rw [ht, hr, ← hx, ho]
    exact ⟨rfl, closeAll_update hl⟩
  | case3 t l r hd hne ih =>
    obtain ⟨hfree, x, hx, ht⟩ := dup_some hd
    have hrn : n ≠ r.1 := fun he => hne (congrArg (fun m : Fin NOFILE => (m.val : Int)) he.symm)
    have hold : oldd ≠ r.1.val := by
      rintro rfl
      rw [argfd, slot_val, bind_some, hfree] at ho
      cases ho
    have ih := ih (not_mem_cons_of_ne_of_not_mem hrn hl) (by rw [ht, argfd_update_ne hold]; exact ho)
      (by rw [ht, update_of_ne hrn]; exact hn)
    exact ⟨ih.1, ih.2.trans (by rw [ht, closeAll_extra hfree])⟩

/-- For a `newd` that is no slot the loop goes on until `dup` fails. -/
theorem dupLoop_miss (l : List (Fin NOFILE)) (h : slot newd = none) : let r := dupLoop oldd newd t l
    r.1 = -1 ∧ closeAll r.2.1 r.2.2 = closeAll l t := by
  fun_induction dupLoop oldd newd t l with
  | case1 t l hd => exact ⟨rfl, rfl⟩
  | case2 t l r hd heq =>
    rw [← heq, slot_val] at h
    cases h
  | case3 t l r hd hne ih =>
    obtain ⟨hfree, x, -, ht⟩ := dup_some hd
    exact ⟨ih.1, ih.2.trans (by rw [ht, closeAll_extra hfree])⟩

theorem dup2_closed (h : argfd (close t newd) oldd = none) : dup2 t oldd newd = (-1, close t newd) := by
  have hd : dup (close t newd) oldd = none := by rw [dup, h]; rfl
  rw [dup2, dupLoop]
  split
  · rfl
  · next hr => rw [hd] at hr; cases hr

/-- With `oldd` open, for a `newd` that is another slot, `dup2` sets that slot and returns 0. -/
theorem dup2_hit (ho : argfd t oldd = some f) (hne : oldd ≠ n.val) : dup2 t oldd n.val = (0, update t n (some f)) := by
  obtain ⟨h1, h2⟩ := dupLoop_hit (t := update t n none) [] not_mem_nil
    ((argfd_update_ne hne).trans ho) (update_self ..)
  have hpos : (n.val : Int) ≠ -1 := by omega
  simp only [dup2, close_val]
  rw [h1, h2, if_neg hpos, closeAll, update_idem]

/-- What `dup2` is for. -/
def Dup2 (t : Ofile F) (oldd newd : Int) (r : Int × Ofile F) : Prop :=
  match argfd t oldd, slot newd with
  | some f, some n => r = (newd, update t n (some f))
  | _, _ => r = (-1, t)

/-- `dup2` is exact just when it does not have to return anything but 0 or -1, makes no descriptor out of itself and
    does not fail with `newd` open. -/
theorem dup2_exact_iff (t : Ofile F) (oldd newd : Int) : Dup2 t oldd newd (dup2 t oldd newd) ↔
    (argfd t oldd ≠ none → slot newd ≠ none → newd = 0 ∧ oldd ≠ newd) ∧
      (argfd t oldd = none → argfd t newd = none) := by
  rw [Dup2]
  cases ho : argfd t oldd with
  | none =>
    cases hn : slot newd with
    | none =>
      have hclose : close t newd = t := by rw [close, hn]
      rw [dup2_closed (by rw [hclose]; exact ho), hclose]
      simp [argfd, hn]
    | some n =>
      obtain rfl := val_of_slot hn
      have hclosed : argfd (close t n.val) oldd = none := by
        rw [close_val]
        by_cases he : oldd = n.val
        · rw [he, argfd, slot_val, bind_some, update_self]
        · rw [argfd_update_ne he, ho]
      rw [dup2_closed hclosed, close_val]
      simp [argfd, eq_comm]
  | some f =>
    cases hn : slot newd with
    | none =>
      obtain ⟨h1, h2⟩ := @dupLoop_miss F t oldd newd [] hn
      have hclose : close t newd = t := by rw [close, hn]
      simp only [dup2, hclose, h1, h2]
      simp [closeAll]
    | some n =>
      obtain rfl := val_of_slot hn
      by_cases heq : oldd = n.val
      · have hnone : argfd (close t n.val) oldd = none := by
          rw [close_val, heq, argfd, slot_val, bind_some, update_self]
        rw [dup2_closed hnone]
        simp only [Prod.mk.injEq, heq]
        refine iff_of_false ?_ (by simp)
        intro h
        omega
      · rw [dup2_hit ho heq]
        simp [heq, eq_comm]

/-- Only descriptor 3 is open. -/
def onlyThree : Ofile Unit := fun n => if n.val = 3 then some () else none

/-- `dup2(3, 1)` returns 0. -/
theorem dup2_not_exact : ¬ Dup2 onlyThree 3 1 (dup2 onlyThree 3 1) := by
  have hval : dup2 onlyThree 3 1 = (0, _) := dup2_hit (n := ⟨1, by decide⟩) (f := ()) rfl (by decide)
  intro h
  rw [hval] at h
  exact absurd (congrArg Prod.fst (show _ = ((1 : Int), _) from h)) (by decide)

end Dup2

/-! ## `waitpid` -/

section Waitpid

/-- A child: its slot in the table is its place in the list, and `exits` is the number of the first scan of the table
    that finds it a zombie. -/
structure Child where
  pid : Int32
  status : Int32
  exits : Nat
deriving DecidableEq

variable {pid : Int16} {k k' : Nat} {cs : List Child} {c : Child}

/-- `wait` of a process that is not killed, from scan number `k` on: the child it reaps, and the number of the next
    scan. Without children it returns -1, and with no zombie among them it sleeps until the next scan. -/
def wait (k : Nat) (cs : List Child) : Option (Child × Nat) :=
  match h : cs.find? fun c => decide (c.exits ≤ k) with
  | some c => some (c, k + 1)
  | none => if hk : cs = [] then none else wait (k + 1) cs
termination_by (cs.head?.map Child.exits).getD 0 - k
decreasing_by
  obtain ⟨c, cs, rfl⟩ := exists_cons_of_ne_nil hk
  have := of_decide_eq_false (Bool.eq_false_iff.mpr (find?_eq_none.mp h c mem_cons_self))
  simp only [head?_cons, map_some, getD_some]
  omega

theorem wait_mem (h : wait k cs = some (c, k')) : c ∈ cs := by
  fun_induction wait k cs with
  | case1 k c hf => cases h; exact mem_of_find?_eq_some hf
  | case2 k hf hk => cases h
  | case3 k hf hk ih => exact ih h

theorem wait_zombie (h : (cs.find? fun c => decide (c.exits ≤ k)) = some c) : wait k cs = some (c, k + 1) := by
  rw [wait]
  split
  · next h' => rw [h] at h'; rw [some.inj h']
  · next h' => rw [h] at h'; cases h'

theorem wait_some (h : cs ≠ []) : (wait k cs).isSome := by
  fun_induction wait k cs with
  | case1 k c hf => rfl
  | case2 k hf hk => exact absurd hk h
  | case3 k hf hk ih => exact ih

/-- `waitpid`: its value, the child it reaped last and the children that are left. `pid_t` is a `short`. -/
def waitpid (pid : Int16) (k : Nat) (cs : List Child) : Int16 × Option Child × List Child :=
  match h : wait k cs with
  | none => (-1, none, cs)
  | some x =>
    if x.1.pid.toInt16 < 0 then (x.1.pid.toInt16, some x.1, cs.erase x.1)
    else if x.1.pid.toInt16 = pid then (pid, some x.1, cs.erase x.1)
    else waitpid pid x.2 (cs.erase x.1)
termination_by cs.length
decreasing_by
  have hm := wait_mem h
  have := length_pos_of_mem hm
  rw [length_erase_of_mem hm]
  omega

/-- What `wait` returns call after call, with the status; the last call finds no child. -/
def waits (k : Nat) (cs : List Child) : List (Int32 × Int32) :=
  match h : wait k cs with
  | none => [(-1, 0)]
  | some x => (x.1.pid, x.1.status) :: waits x.2 (cs.erase x.1)
termination_by cs.length
decreasing_by
  have hm := wait_mem h
  have := length_pos_of_mem hm
  rw [length_erase_of_mem hm]
  omega

theorem waits_eq {x : Child × Nat} (hw : wait k cs = some x) :
    waits k cs = (x.1.pid, x.1.status) :: waits x.2 (cs.erase x.1) := by
  rw [waits]
  split
  · next h => rw [hw] at h; cases h
  · next y h =>
    rw [hw] at h
    cases h
    rfl

/-- On children, `waitpid` returns what it returns on the answers of `wait` to it. -/
theorem waitpid_waits (pid : Int16) (k : Nat) (cs : List Child) :
    (Xv6Proc.waitpid pid (waits k cs)).map Prod.fst = some (waitpid pid k cs).1 := by
  fun_induction waitpid pid k cs with
  | case1 k cs h =>
    rw [waits]
    split
    · rfl
    · next h' => rw [h] at h'; cases h'
  | case2 k cs x h hp =>
    rw [waits_eq h, Xv6Proc.waitpid, if_pos hp]
    rfl
  | case3 k cs x h h0 hp =>
    rw [waits_eq h, Xv6Proc.waitpid, if_neg h0, if_pos hp]
    rfl
  | case4 k cs x h h0 hp ih =>
    rw [waits_eq h, Xv6Proc.waitpid, if_neg h0, if_neg hp]
    exact ih

/-- What is left was there. -/
theorem waitpid_subset (pid : Int16) (k : Nat) (cs : List Child) : (waitpid pid k cs).2.2 ⊆ cs := by
  fun_induction waitpid pid k cs with
  | case1 k cs h => exact fun c hc => hc
  | case2 k cs x h hp => exact erase_subset
  | case3 k cs x h h0 hp => exact erase_subset
  | case4 k cs x h h0 hp ih => exact fun c hc => erase_subset (ih hc)

/-- A call for any child returns no child's number. -/
theorem waitpid_neg (k : Nat) (cs : List Child) (h : pid < 0) : (waitpid pid k cs).1 < 0 := by
  fun_induction waitpid pid k cs with
  | case1 k cs hw => exact (by decide : (-1 : Int16) < 0)
  | case2 k cs x hw hp => exact hp
  | case3 k cs x hw h0 hp => exact h
  | case4 k cs x hw h0 hp ih => exact ih

theorem waitpid_eq {x : Child × Nat} (hw : wait k cs = some x) : waitpid pid k cs =
    if x.1.pid.toInt16 < 0 then (x.1.pid.toInt16, some x.1, cs.erase x.1)
    else if x.1.pid.toInt16 = pid then (pid, some x.1, cs.erase x.1) else waitpid pid x.2 (cs.erase x.1) := by
  rw [waitpid]
  split
  · next h => rw [hw] at h; cases h
  · next y h =>
    rw [hw] at h
    cases h
    rfl

/-- The child that `wait` hands out first is reaped. -/
theorem waitpid_first (hw : wait k cs = some (c, k')) : (waitpid pid k cs).2.2 ⊆ cs.erase c := by
  rw [waitpid_eq hw]
  split_ifs
  · exact Subset.refl _
  · exact Subset.refl _
  · exact waitpid_subset _ _ _

/-- `waitpid`, called with the number `pid`, reaps only what was asked for. -/
structure Waits (pid : Int32) (cs : List Child) (r : Int16 × Option Child × List Child) : Prop where
  child : ∀ c ∈ cs, c.pid = pid → r.1.toInt32 = c.pid ∧ r.2 = (some c, cs.erase c)
  any : pid = -1 → cs ≠ [] → ∃ c ∈ cs, (∀ d ∈ cs, c.exits ≤ d.exits) ∧
    r.1.toInt32 = c.pid ∧ r.2 = (some c, cs.erase c)
  failed : r.1 = -1 → ∀ c ∈ cs, c.pid ≠ pid ∧ pid ≠ -1

/-- A number that a `short` holds has its sign there. -/
theorem toInt16_pos {n : Int32} {x : Int16} (h : x.toInt32 = n) (hn : 0 < n) : 0 < x := by
  rw [Int32.lt_iff_toInt_lt, ← h, Int16.toInt_toInt32] at hn
  exact Int16.lt_iff_toInt_lt.mpr hn

/-- It does just when the child asked for is the first one that `wait` hands out and a `short` holds its number, and
    no call for any child is made with children. -/
theorem waitpid_reaps_iff {pid : Int32} (hpos : ∀ c ∈ cs, 0 < c.pid) (hnd : (cs.map Child.pid).Nodup) :
    Waits pid cs (waitpid pid.toInt16 k cs) ↔
      (∀ c ∈ cs, c.pid = pid → pid.toInt16.toInt32 = pid ∧ ∃ k', wait k cs = some (c, k')) ∧ (pid = -1 → cs = []) := by
  constructor
  · intro h
    refine ⟨fun c hc hp => ?_, fun hp => by_contra fun hne => ?_⟩
    · obtain ⟨⟨d, k'⟩, hd⟩ := isSome_iff_exists.mp (wait_some (k := k) (ne_nil_of_mem hc))
      obtain ⟨hval, hr⟩ := h.child c hc hp
      have hdc : d = c := by
        -- another child handed out first would be left, but has been reaped
        by_contra hdc
        have hleft : (waitpid pid.toInt16 k cs).2.2 ⊆ cs.erase d := waitpid_first hd
        rw [hr] at hleft
        exact absurd (hleft ((mem_erase_of_ne hdc).mpr (wait_mem hd))) hnd.of_map.not_mem_erase
      subst hdc hp
      rw [waitpid_eq hd, if_pos rfl, ite_self] at hval
      exact ⟨hval, k', hd⟩
    · obtain ⟨c, hc, -, hv, -⟩ := h.any hp hne
      have hneg := @waitpid_neg pid.toInt16 k cs (by rw [hp]; decide)
      exact absurd (toInt16_pos hv (hpos c hc)) (Int16.lt_asymm hneg)
  · rintro ⟨hfirst, hany⟩
    have hchild : ∀ c ∈ cs, c.pid = pid → waitpid pid.toInt16 k cs = (pid.toInt16, some c, cs.erase c) := by
      rintro c hc rfl
      obtain ⟨hfit, _, hw⟩ := hfirst c hc rfl
      rw [waitpid_eq hw, if_pos rfl, ite_self]
    refine ⟨fun c hc hp => ?_, fun hp hne => absurd (hany hp) hne, fun hr c hc => ⟨fun hp => ?_, fun hp => ?_⟩⟩
    · rw [hchild c hc hp]
      exact ⟨(hfirst c hc hp).1.trans hp.symm, rfl⟩
    · rw [hchild c hc hp] at hr
      have := toInt16_pos (hfirst c hc hp).1 (hp ▸ hpos c hc)
      rw [show pid.toInt16 = -1 from hr] at this
      exact absurd this (by decide)
    · rw [hany hp] at hc
      cases hc

/-- Process 5 is asked for and is the only child that has exited. -/
theorem waitpid_reaps_only_child : Waits 5 [⟨4, 0, 9⟩, ⟨5, 1, 0⟩] (waitpid 5 0 [⟨4, 0, 9⟩, ⟨5, 1, 0⟩]) :=
  (waitpid_reaps_iff (by decide) (by decide)).mpr
    ⟨fun c hc hp => ⟨by decide, 1, wait_zombie (by revert c; decide)⟩, fun h => absurd h (by decide)⟩

/-- Both children have exited, and process 4 is before process 5 in the table. -/
theorem waitpid_reaps_other : ¬ Waits 5 [⟨4, 0, 0⟩, ⟨5, 1, 0⟩] (waitpid 5 0 [⟨4, 0, 0⟩, ⟨5, 1, 0⟩]) := by
  intro h
  have hleft := @waitpid_first 5 0 1 [⟨4, 0, 0⟩, ⟨5, 1, 0⟩] ⟨4, 0, 0⟩ (wait_zombie rfl)
  rw [(h.child ⟨5, 1, 0⟩ (by simp) rfl).2] at hleft
  exact absurd (hleft (a := ⟨4, 0, 0⟩) (by decide)) (by decide)

end Waitpid

/-! ## `readdir` -/

/-- `struct dirent` of the library; `d_name` is the memory from the field of this name on. -/
structure BsdDirent where
  d_fileno : UInt32
  d_namlen : UInt16
  d_name : List UInt8

/-- `readdir`, with the memory that `malloc` returns and the part of the directory that is not read yet: `read` comes
    to the end, or `strncpy` fills the first `DIRSIZ` bytes of `d_name` and leaves the others. -/
def readdir (mem : List UInt8) : List Dirent → Option (BsdDirent × List Dirent)
  | [] => none
  | x :: rest =>
    let d_name := ofFn (strncpyName (ofFn x.name)) ++ mem.drop DIRSIZ
    some (⟨x.inum.toUInt32, (cstr d_name).length.toUInt16, d_name⟩, rest)

/-- The results of `readdir` until it returns NULL; `mem k` is the memory of the `k`th call. -/
def readAll (mem : Nat → List UInt8) (k : Nat) (dir : List Dirent) : List BsdDirent :=
  match h : readdir (mem k) dir with
  | none => []
  | some r => r.1 :: readAll mem (k + 1) r.2
termination_by dir.length
decreasing_by
  cases dir with
  | nil => cases h
  | cons x rest => cases h; exact Nat.lt_succ_self _

/-- A result shows a directory entry. -/
def Shows (d : BsdDirent) (x : Dirent) : Prop :=
  d.d_fileno = x.inum.toUInt32 ∧ cstr d.d_name = nameOf x ∧ d.d_namlen.toNat = (nameOf x).length

variable {mem : Nat → List UInt8} {dir : List Dirent} {k : Nat}

theorem nameOf_le (x : Dirent) : (nameOf x).length ≤ DIRSIZ :=
  (List.takeWhile_prefix _).length_le.trans_eq (length_ofFn ..)

/-- `strncpy` copies the name and fills the rest with zeros. -/
theorem strncpy_name (x : Dirent) : ofFn (strncpyName (ofFn x.name)) =
    nameOf x ++ List.replicate (DIRSIZ - (nameOf x).length) 0 := by
  have hle := nameOf_le x
  refine ext_getElem (by simp; omega) fun j h1 h2 => ?_
  rw [List.getElem_ofFn, List.getElem_append]
  show (nameOf x).getD j 0 = _
  split_ifs with hj
  · exact getD_eq_getElem _ _ hj
  · rw [getElem_replicate, getD_eq_default _ _ (by omega)]

/-- A name of `DIRSIZ` bytes runs on into the memory behind it. -/
theorem cstr_d_name (x : Dirent) (m : List UInt8) : cstr (ofFn (strncpyName (ofFn x.name)) ++ m) =
      if (nameOf x).length < DIRSIZ then nameOf x else nameOf x ++ cstr m := by
  have hname : ∀ c ∈ nameOf x, decide (c ≠ 0) = true := fun c hc => mem_takeWhile_imp (p := fun c => decide (c ≠ 0)) hc
  rw [strncpy_name, cstr, append_assoc, takeWhile_append_of_pos hname]
  split_ifs with hlt
  · obtain ⟨n, hn⟩ := Nat.exists_eq_succ_of_ne_zero (Nat.sub_ne_zero_of_lt hlt)
    rw [hn, replicate_succ, cons_append, takeWhile_cons_of_neg (by simp), append_nil]
  · rw [Nat.sub_eq_zero_of_le (Nat.le_of_not_lt hlt)]
    rfl

theorem cstr_drop {m : List UInt8} {n : Nat} : cstr (m.drop n) = [] ↔ m.getD n 0 = 0 := by
  rw [getD_eq_getElem?_getD, ← head?_drop]
  cases m.drop n with
  | nil => simp [cstr]
  | cons a l =>
    rw [cstr_cons]
    simp

/-- One result shows its entry unless the name is full and the memory behind it does not happen to be zero. -/
theorem shows_iff {r : BsdDirent × List Dirent} {x : Dirent} {m : List UInt8} (h : readdir m (x :: dir) = some r) :
    Shows r.1 x ↔ ((nameOf x).length < DIRSIZ ∨ m.getD DIRSIZ 0 = 0) := by
  cases h
  simp only [Shows, cstr_d_name, true_and]
  have hmod : (nameOf x).length.toUInt16.toNat = (nameOf x).length :=
    Nat.mod_eq_of_lt ((nameOf_le x).trans_lt (by decide))
  split_ifs with hlt
  · simp [hlt, hmod]
  · rw [← cstr_drop]
    constructor
    · rintro ⟨h, -⟩
      exact .inr (append_right_eq_self.mp h)
    · rintro (h | h)
      · exact absurd h hlt
      · rw [h, append_nil]
        exact ⟨rfl, hmod⟩

theorem readAll_cons (x : Dirent) : ∃ r, readdir (mem k) (x :: dir) = some r ∧
    readAll mem k (x :: dir) = r.1 :: readAll mem (k + 1) dir := by
  refine ⟨_, rfl, ?_⟩
  rw [readAll]
  rfl

/-- The results show all entries, deleted or not, in order. -/
theorem readAll_shows : List.Forall₂ Shows (readAll mem k dir) dir ↔
    ∀ j x, dir[j]? = some x → (nameOf x).length < DIRSIZ ∨ (mem (k + j)).getD DIRSIZ 0 = 0 := by
  induction dir generalizing k with
  | nil => rw [readAll]; simp [readdir]
  | cons x dir ih =>
    obtain ⟨r, hr, hall⟩ := @readAll_cons mem dir k x
    rw [hall, forall₂_cons, shows_iff hr, ih]
    constructor
    · rintro ⟨h0, h⟩ (_ | j) y hy
      · cases hy
        exact h0
      · rw [← Nat.succ_add_eq_add_succ]
        exact h j y hy
    · intro h
      refine ⟨h 0 x rfl, fun j y hy => ?_⟩
      have := h (j + 1) y hy
      rwa [← Nat.succ_add_eq_add_succ] at this

theorem readAll_length : (readAll mem k dir).length = dir.length := by
  induction dir generalizing k with
  | nil => rw [readAll]; rfl
  | cons x dir ih =>
    obtain ⟨r, -, hall⟩ := @readAll_cons mem dir k x
    rw [hall, length_cons, length_cons, ih]

/-- `readdir` enumerates the live entries just when there is no deleted one, and behind each name of `DIRSIZ` bytes
    the memory from `malloc` happens to be zero. -/
theorem readdir_exact_iff (mem : Nat → List UInt8) (dir : List Dirent) :
    List.Forall₂ Shows (readAll mem 0 dir) (dir.filter fun x => x.inum ≠ 0) ↔ (∀ x ∈ dir, x.inum ≠ 0) ∧
        ∀ j x, dir[j]? = some x → (nameOf x).length < DIRSIZ ∨ (mem j).getD DIRSIZ 0 = 0 := by
  have hshows := @readAll_shows mem dir 0
  simp only [zero_add] at hshows
  rw [← hshows]
  constructor
  · intro h
    have hlen := h.length_eq
    rw [readAll_length] at hlen
    have hlive : ∀ x ∈ dir, decide (x.inum ≠ 0) = true := length_filter_eq_length_iff.mp hlen.symm
    rw [filter_eq_self.mpr hlive] at h
    exact ⟨fun x hx => of_decide_eq_true (hlive x hx), h⟩
  · rintro ⟨hlive, h⟩
    rwa [filter_eq_self.mpr fun x hx => decide_eq_true (hlive x hx)]

/-- A directory with one deleted entry. -/
theorem readdir_deleted : ¬ List.Forall₂ Shows (readAll (fun _ => []) 0 [⟨0, fun _ => 0⟩])
    ([⟨0, fun _ => 0⟩].filter fun x : Dirent => x.inum ≠ 0) := by
  intro h
  have := h.length_eq
  rw [readAll_length] at this
  exact absurd this (by decide)

end Xv6Lib
