import Xv6.FsInvariantProofs

/-!
# Path walks — `namex` on the table of nodes

`resolve` is what a path means: a walk over the table of nodes, one directory lookup for each
element. `namex` computes it (`namex_world`): it returns a reference to the inode that the walk
ends at, changes nothing on the disk, logs nothing and frees nothing. The references it takes
on its way it gives back.
-/

namespace Xv6World

open CmdProg ByteBuf Xv6Disk Xv6Kernel Xv6Fs Xv6Layout Xv6Own Xv6Inode List

/-- The walk of `namex` over a table of nodes, from inode `i` on. -/
def walkFrom (T : Nat → Option Node) (parent : Bool) :
    (rounds : Nat) → (i : Nat) → (path name : List UInt8) → Option (Nat × List UInt8)
  | 0, _, _, _ => none
  | r + 1, i, path, name =>
    match skipelem path with
    | none => if parent then none else some (i, name)
    | some (name', rest) =>
      match T i with
      | none => none
      | some x =>
        if x.type ≠ T_DIR then none
        else if parent = true ∧ rest = [] then some (i, name')
        else
          match x.lookup name' with
          | none => none
          | some m => walkFrom T parent r (x.entry m).inum.toNat rest name'

/-- The directory of the process has a reference. -/
abbrev CwdHeld (H : Fin NINODE → Nat) (s : LState) (p : Fin NPROC) : Prop :=
  ∀ k, (s.mem.ptable p).cwd = some k → 0 < H k

theorem cwdHeld_of_some {H : Fin NINODE → Nat} {s : LState} {p : Fin NPROC}
    (h : ∃ k, (s.mem.ptable p).cwd = some k ∧ 0 < H k) : CwdHeld H s p := by
  obtain ⟨k, hk, hpos⟩ := h
  intro l hl
  rw [hk] at hl
  cases hl
  exact hpos

/-- Where the walk of process `p` starts. -/
def startOf (m : Mem) (p : Fin NPROC) (path : List UInt8) : Nat :=
  if path.head? = some slash then ROOTINO
  else
    match (m.ptable p).cwd with
    | some k => (m.icache k).inum
    | none => 0

/-- The inode that a path of process `p` names; with `parent`, the directory it ends in and
    the last element. -/
def resolve (sb : Superblock) (s : LState) (p : Fin NPROC) (path : List UInt8) (parent : Bool) :
    Option (Nat × List UInt8) :=
  walkFrom (nodes sb s.view) parent (path.length + 1) (startOf s.mem p path) path []

/-- What a walk leaves: the result is `w`, and one reference to it is new. -/
def Walked (sb : Superblock) (N : Prop) (H : Fin NINODE → Nat) (s : LState)
    (w : Option (Nat × List UInt8)) : Option (Fin NINODE × List UInt8) → LState → Prop
  | none, s' => World sb N H s' ∧ Still H s s' ∧ w = none
  | some r, s' => World sb N (bump H r.1) s' ∧ Still H s s' ∧
      w = some ((s'.mem.icache r.1).inum, r.2)

section Walk

variable {sb : Superblock} {N : Prop} {H : Fin NINODE → Nat} {s s' : LState} {W : Set Nat}
  {w : Option (Nat × List UInt8)}

theorem drop_bump_bump {a b : Fin NINODE} : drop (bump (bump H a) b) a = bump H b := by
  by_cases h : b = a
  · rw [h, drop_bump]
  · rw [drop_bump_comm h, drop_bump]

/-- A walk that goes on from a later state is a walk from the first. -/
theorem Walked.after {r : Option (Fin NINODE × List UInt8)} {s'' : LState}
    (h : Walked sb N H s' w r s'') (hs : Still H s s') : Walked sb N H s w r s'' := by
  cases r with
  | none | some r => exact ⟨h.1, hs.trans h.2.1, h.2.2⟩

/-- Each element makes the path shorter. -/
theorem skipelem_length {path name rest : List UInt8} (h : skipelem path = some (name, rest)) :
    rest.length < path.length := by
  rw [skipelem] at h
  have hdrop := (dropWhile_suffix (· = slash) (l := path)).length_le
  cases hp : path.dropWhile (· = slash) with
  | nil => rw [hp] at h; cases h
  | cons c cs =>
    rw [hp] at h hdrop
    have hc : c ≠ slash := by
      have hne : path.dropWhile (· = slash) ≠ [] := by rw [hp]; exact cons_ne_nil c cs
      have := head_dropWhile_not (· = slash) hne
      simpa [hp] using this
    have hcs : (c :: cs).dropWhile (· ≠ slash) = cs.dropWhile (· ≠ slash) :=
      dropWhile_cons_of_pos (by simpa using hc)
    simp only [Option.some.injEq, Prod.mk.injEq] at h
    rw [← h.2, hcs]
    calc ((cs.dropWhile (· ≠ slash)).dropWhile (· = slash)).length
        ≤ (cs.dropWhile (· ≠ slash)).length := (dropWhile_suffix _).length_le
      _ ≤ cs.length := (dropWhile_suffix _).length_le
      _ < path.length := hdrop

theorem namexLoop_world {parent : Bool} : ∀ (r : Nat) (ip : Fin NINODE) (path name : List UInt8) (s : LState),
    path.length < r → World sb N (bump H ip) s → Held sb H s → Does W N (Walked sb N H s
        (walkFrom (nodes sb s.view) parent r (s.mem.icache ip).inum path name))
      (namexLoop parent r ip path name) s := by
  intro r
  induction r with
  | zero => intro _ path _ _ hr; exact absurd hr (Nat.not_lt_zero _)
  | succ r ih =>
    intro ip path name s hr hw hheld
    have hip : 0 < bump H ip ip := bump_pos
    have hback : ∀ l, 0 < H l → 0 < bump H ip l := fun _ => bump_pos_of_pos
    rw [namexLoop, walkFrom]
    cases hskip : skipelem path with
    | none =>
      cases parent with
      | true =>
        refine does_seq (iput_quiet hw hip (by rw [drop_bump]; exact hheld)) ?_
        rintro _ s1 ⟨hw1, hs1⟩
        rw [drop_bump] at hw1 hs1
        exact does_pure ⟨hw1, hs1, rfl⟩
      | false => exact does_pure ⟨hw, Still.refl, rfl⟩
    | some e =>
      obtain ⟨name', rest⟩ := e
      refine does_seq (ilock_world hw hip) ?_
      rintro _ s1 ⟨hw1, hs1, _, _, x, hat⟩
      have hheld1 : Held sb H s1 := hheld.frame (hs1.toFrame.mono hback) hs1.view fun _ hl => hl
      have hx : nodes sb s.view (s.mem.icache ip).inum = some x := by
        rw [← hs1.view]; exact hat.node
      refine does_getInode ?_
      rw [hat.type]
      simp only [hx]
      -- every way back gives up the reference to `ip`
      have hgiveup : Does W N (Walked sb N H s none)
          (iunlockput ip >>= fun _ => (pure none : K (Option (Fin NINODE × List UInt8)))) s1 := by
        refine does_seq (iunlockput_quiet hw1 hip (by rw [drop_bump]; exact hheld1)) ?_
        rintro _ s2 ⟨hw2, hs2⟩
        rw [drop_bump] at hw2 hs2
        exact does_pure ⟨hw2, (hs1.mono hback).trans hs2, rfl⟩
      split
      · exact hgiveup
      · by_cases hstop : parent = true ∧ rest = []
        · rw [if_pos hstop, if_pos hstop]
          refine does_seq (iunlock_world hw1 hip) ?_
          rintro _ s2 ⟨hw2, hs2⟩
          have hs := hs1.trans hs2
          exact does_pure ⟨hw2, hs.mono hback, by rw [hs.inum ip hip]⟩
        · rw [if_neg hstop, if_neg hstop]
          refine does_seq (dirlookup_world hw1 hip hat) ?_
          rintro (_ | next) s2 ⟨_, hfound⟩
          · obtain ⟨rfl, hnone⟩ := hfound
            rw [hnone]
            exact hgiveup
          · obtain ⟨m, hm, _, hinum, hw2, hs2, _⟩ := hfound
            have hs12 : Still H s s2 := (hs1.trans hs2).mono hback
            have hheld2 : Held sb (bump H next.1) s2 :=
              hheld.frame hs12.toFrame hs12.view fun _ => bump_pos_of_pos
            refine does_seq (iunlockput_quiet hw2 (bump_pos_of_pos hip) (by rw [drop_bump_bump]; exact hheld2)) ?_
            rintro _ s3 ⟨hw3, hs3⟩
            rw [drop_bump_bump] at hw3 hs3
            have hs13 : Still H s s3 := hs12.trans (hs3.mono fun _ => bump_pos_of_pos)
            have hheld3 : Held sb H s3 := hheld.frame hs13.toFrame hs13.view fun _ hl => hl
            have hlen := skipelem_length hskip
            refine does_mono (ih next.1 rest name' s3 (by omega) hw3 hheld3) ?_
            intro res s4 hres
            rw [hs13.view, hs3.inum _ bump_pos, hinum] at hres
            simp only [hm]
            exact hres.after hs13

variable {p : Fin NPROC} {path : List UInt8} (h : World sb N H s)
  (hcwd : CwdHeld H s p)
include h hcwd

theorem namexStart_world : Does W N (fun k s' => World sb N (bump H k) s' ∧ Still H s s' ∧
      (s'.mem.icache k).inum = startOf s.mem p path) (namexStart p path) s := by
  rw [namexStart, startOf]
  split_ifs with habs
  · refine does_mono (iget_does h.cache (le_refl 1) h.disk.layout.root fun hN hfree => ?_) ?_
    · exact (h.sound hN).root (nodesOf_none.mpr hfree)
    · exact fun k s' hg => h.got hg
  · refine does_getMem ?_
    cases hc : (s.mem.ptable p).cwd with
    | none => exact does_kpanic (by decide)
    | some k =>
      refine does_mono (idup_does h.cache (hcwd k hc)) ?_
      rintro _ s' ⟨rfl, hg⟩
      exact h.got hg

/-- **`namex`** ends where the walk over the table of nodes ends, and leaves the disk as it
    is. -/
theorem namex_world {parent : Bool} :
    Does W N (Walked sb N H s (resolve sb s p path parent)) (namex p path parent) s := by
  refine does_seq (namexStart_world h hcwd) ?_
  rintro k s1 ⟨hw, hs, hinum⟩
  have hheld : Held sb H s1 := h.held.frame hs.toFrame hs.view fun _ hl => hl
  refine does_mono (namexLoop_world _ k path [] s1 (Nat.lt_succ_self _) hw hheld) ?_
  intro r s2 hr
  rw [hs.view, hinum] at hr
  exact hr.after hs

theorem namei_world : Does W N (fun (r : Option (Fin NINODE)) s' => match r with
      | none => World sb N H s' ∧ Still H s s' ∧ resolve sb s p path false = none
      | some k => World sb N (bump H k) s' ∧ Still H s s' ∧
          ∃ name, resolve sb s p path false = some ((s'.mem.icache k).inum, name)) (namei p path) s := by
  refine does_seq (namex_world h hcwd) ?_
  rintro (_ | r) s1 hr
  · exact does_pure hr
  · exact does_pure ⟨hr.1, hr.2.1, r.2, hr.2.2⟩

end Walk

end Xv6World
