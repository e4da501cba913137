import Xv6.DirMapProofs

/-!
# Failed calls — what `open`, `link`, `unlink`, `mkdir` and `mknod` leave behind

Each of the calls changes the file system in several steps, and each has exits with an error. `link` raises the link
count before it knows whether the new name can be entered and takes it back at `bad:`; `unlink`, `mkdir` and `mknod`
change nothing before the last thing that can fail. `open` with `O_CREATE` creates the file first and looks for a file
structure and a descriptor then: if there is none it returns an error, and the file stays.
-/

namespace Xv6World

open CmdProg ByteBuf Xv6Disk Xv6Kernel Xv6Fs Xv6Sys Xv6Layout Xv6Own Xv6Inode Xv6Total Function Option UInt16

/-! ## Calls that return -/

/-- If `p` returns from `s`, then in `Q`. -/
def Returns {α : Type} (Q : α → LState → Prop) (p : K α) (s : LState) : Prop :=
  ∀ a s', exec p s = .done a s' → Q a s'

section Rules

variable {α β : Type} {R : α → LState → Prop} {Q : β → LState → Prop} {p : K α} {f : α → K β} {s : LState}

theorem returns_pure {b : β} (h : Q b s) : Returns Q (pure b) s := by
  intro a s' hrun
  obtain ⟨rfl, rfl⟩ := exec_pure_done.mp hrun
  exact h

theorem returns_any : Returns (fun _ _ => True) p s := fun _ _ _ => trivial

theorem returns_does {W : Set Nat} {N : Prop} (h : Does W N R p s) : Returns R p s := fun _ _ hrun => does_exec h hrun

theorem returns_mono {R' : α → LState → Prop} (h : Returns R p s) (himp : ∀ a s', R a s' → R' a s') : Returns R' p s :=
  fun a s' hrun => himp a s' (h a s' hrun)

theorem returns_seq (hp : Returns R p s) (hf : ∀ a s', R a s' → Returns Q (f a) s') : Returns Q (p >>= f) s := by
  intro b s' hrun
  obtain ⟨a, s1, hr1, hr2⟩ := exec_bind_done.mp hrun
  exact hf a s1 (hp a s1 hr1) b s' hr2

/-- What the first part does is of no interest. -/
theorem returns_skip (hf : ∀ a s', Returns Q (f a) s') : Returns Q (p >>= f) s := returns_seq returns_any fun a s' _ => hf a s'

theorem returns_kpanic {msg : String} : Returns Q (kpanic msg) s := fun _ _ hrun => (exec_kpanic_done.mp hrun).elim

theorem returns_getInode {k : Fin NINODE} {g : Inode → K β} (h : Returns Q (g (s.mem.icache k)) s) :
    Returns Q (getInode k >>= g) s := h

theorem returns_getMem {g : Mem → K β} (h : Returns Q (g s.mem) s) : Returns Q (getMem >>= g) s := h

theorem returns_getProc {q : Fin NPROC} {g : Proc → K β} (h : Returns Q (g (s.mem.ptable q)) s) :
    Returns Q (getProc q >>= g) s := h

theorem returns_getFile {x : Fin NFILE} {g : File → K β} (h : Returns Q (g (s.mem.ftable x)) s) :
    Returns Q (getFile x >>= g) s := h

theorem returns_modMem {g : Mem → Mem} {k : Unit → K β} (h : Returns Q (k ()) { s with mem := g s.mem }) :
    Returns Q (modMem g >>= k) s := h

theorem returns_beginOp {g : Unit → K β} (h : Returns Q (g ()) (entered s)) : Returns Q (beginOp >>= g) s := by
  refine returns_seq (R := fun _ s' => s' = entered s) (fun _ _ hrun => exec_beginOp_done hrun) ?_
  rintro _ _ rfl
  exact h

/-- The end of a call: the transaction ends and the call returns `b`. -/
theorem returns_endOp {b : β} (h : Q b (left s)) : Returns Q (endOp >>= fun _ => pure b) s := by
  refine returns_seq (R := fun _ s' => s' = left s) (fun _ _ hrun => exec_endOp_done hrun) ?_
  rintro _ _ rfl
  exact returns_pure h

end Rules

/-! ## The calls -/

/-- The calls that change names. An argument that cannot be fetched is `none`. -/
inductive NameCall where
  | open (path : Option (List UInt8)) (omode : UInt32)
  | link (old new : Option (List UInt8))
  | unlink (path : Option (List UInt8))
  | mkdir (path : Option (List UInt8))
  | mknod (path : Option (List UInt8)) (major minor : Int16)

def NameCall.run (p : Fin NPROC) : NameCall → K Int
  | .open path omode => sysOpen p path omode
  | .link old new => sysLink p old new
  | .unlink path => sysUnlink p path
  | .mkdir path => sysMkdir p path
  | .mknod path major minor => sysMknod p path major minor

/-- The path leads to a directory without an entry for its last element. -/
def NewName (sb : Superblock) (s : LState) (p : Fin NPROC) (path : List UInt8) : Prop :=
  ∃ d name x, resolve sb s p path true = some (d, name) ∧ nodes sb s.view d = some x ∧ x.lookup name = none

/-- No file structure is free, or the process has no free descriptor. -/
def NoDescriptor (s : LState) (p : Fin NPROC) : Prop :=
  (∀ f, (s.mem.ftable f).ref ≠ 0) ∨ ∀ fd, (s.mem.ptable p).ofile fd ≠ none

/-- The call creates a file that it has no descriptor for. -/
def LeavesFile (sb : Superblock) (s : LState) (p : Fin NPROC) : NameCall → Prop
  | .open (some path) omode => omode &&& O_CREATE ≠ 0 ∧ NewName sb s p path ∧ NoDescriptor s p
  | _ => False

section Calls

variable {sb : Superblock} {H : Fin NINODE → Nat} {s s' : LState} {k dp ip : Fin NINODE} {p : Fin NPROC} {i d : Nat}
  {x : Node} {name path : List UInt8} {Q : Int → LState → Prop}

theorem World.entered (h : World sb True H s) : World sb True H (entered s) := h.same rfl rfl rfl

/-- A reference that has been taken is given back. -/
theorem iunlockput_back (h : World sb True (bump H k) s) (hheld : Held sb H s) :
    Returns (fun _ s' => World sb True H s' ∧ Still H s s') (iunlockput k) s := by
  have hput := iunlockput_quiet (W := ∅) h bump_pos (by rw [drop_bump]; exact hheld)
  rw [drop_bump] at hput
  exact returns_does hput

/-- An exit that gives back a reference, ends the transaction and returns `e`. -/
theorem returns_exit {e : Int} (h : World sb True (bump H k) s) (hheld : Held sb H s)
    (hq : ∀ t, World sb True H t → Still H s t → Q e (left t)) :
    Returns Q (iunlockput k >>= fun _ => endOp >>= fun _ => pure e) s := by
  refine returns_seq (iunlockput_back h hheld) ?_
  rintro _ s1 ⟨hw, hs⟩
  exact returns_endOp (hq s1 hw hs)

/-- `nameiparent` as one step. -/
theorem returns_nameiparent (h : World sb True H s) (hcwd : CwdHeld H s p) :
    Returns (Walked sb True H s (resolve sb s p path true)) (nameiparent p path) s :=
  returns_does (W := ∅) (namex_world h hcwd)

theorem returns_ilock (h : World sb True H s) (hk : 0 < H k) :
    Returns (fun _ s' => World sb True H s' ∧ Still H s s' ∧ (s.mem.icache k).busy = false ∧
      (s'.mem.icache k).busy = true ∧ ∃ x, At sb s' k (s.mem.icache k).inum x) (ilock k) s :=
  returns_does (W := ∅) (ilock_world h hk)

/-! ## `unlink` -/

theorem returns_unlinkable (h : World sb True H s) (hat : At sb s k i x) :
    Returns (fun ok s' => s' = s ∧ (ok = true → x.type = T_DIR → ∀ m, 2 ≤ m → ¬ Live x m)) (unlinkable k) s := by
  refine returns_getInode ?_
  rw [hat.type]
  split_ifs with hx
  · refine returns_mono (returns_does (W := ∅) (N := True) (isdirempty_does h.disk hat hx)) ?_
    rintro ok s' ⟨hs, hempty⟩
    exact ⟨hs, fun hok _ m hm hl => hl.2 (hempty hok m hm hl.1)⟩
  · exact returns_pure ⟨rfl, fun _ hd => absurd hd hx⟩

/-- `unlink`, up to the point where it clears the entry. -/
theorem returns_sysUnlink {path : Option (List UInt8)} (h : World sb True H s) (hcwd : CwdHeld H s p) (hno : Q EINVAL s)
    (hfail : ∀ e t, World sb True H t → Still H (entered s) t → Q e (left t))
    (hentry : ∀ dp ip d i m name x y t, World sb True (bump (bump H dp) ip) t → Held sb H t → Still H (entered s) t →
      At sb t dp d y → At sb t ip i x → ip ≠ dp → y.type = T_DIR → y.lookup name = some m →
      (y.entry m).inum.toNat = i → ¬ (namecmp name dot = 0 ∨ namecmp name dotdot = 0) → ¬ x.nlink < 1 →
      (x.type = T_DIR → ∀ k, 2 ≤ k → ¬ Live x k) → Returns Q (sysUnlinkEntry dp ip (16 * m)) t) :
    Returns Q (sysUnlink p path) s := by
  cases path with
  | none => exact returns_pure hno
  | some path =>
    refine returns_beginOp (returns_seq (returns_nameiparent h.entered hcwd) ?_)
    rintro (_ | y) s1 hwalk
    · exact returns_endOp (hfail _ s1 hwalk.1 hwalk.2.1)
    · obtain ⟨hw1, hs1, -⟩ := hwalk
      refine returns_seq (returns_ilock hw1 bump_pos) ?_
      rintro _ s2 ⟨hw2, hs2, -, hlock2, x, hat2⟩
      have hs02 : Still H (entered s) s2 := hs1.trans (hs2.mono fun _ => bump_pos_of_pos)
      have hheld2 : Held sb H s2 := h.entered.held.frame hs02.toFrame hs02.view fun _ hl => hl
      have hbad : Returns Q (sysUnlinkBad y.1) s2 :=
        returns_exit hw2 hheld2 fun t hw hs => hfail _ t hw (hs02.trans hs)
      split_ifs with hdots
      · exact hbad
      · refine returns_seq (returns_does (W := ∅) (dirlookup_world hw2 bump_pos hat2)) ?_
        rintro (_ | z) s3 ⟨hdir, hfound⟩
        · obtain ⟨rfl, -⟩ := hfound
          exact hbad
        · obtain ⟨m, hm, hoff, hinum, hw3, hs3, hkeep3⟩ := hfound
          have hheld3 : Held sb (bump H y.1) s3 := hw2.held.frame hs3.toFrame hs3.view fun _ hl => hl
          refine returns_seq (returns_ilock hw3 bump_pos) ?_
          rintro _ s4 ⟨hw4, hs4, hfree4, -, z', hat4⟩
          have hne : z.1 ≠ y.1 := by
            intro heq
            rw [heq, hkeep3.busy bump_pos, hlock2] at hfree4
            cases hfree4
          have hs34 : Still (bump H y.1) s3 s4 := hs4.mono fun _ => bump_pos_of_pos
          have hs24 : Still (bump H y.1) s2 s4 := hs3.trans hs34
          have hs04 : Still H (entered s) s4 := hs02.trans (hs24.mono fun _ => bump_pos_of_pos)
          have hheld4 : Held sb H s4 := h.entered.held.frame hs04.toFrame hs04.view fun _ hl => hl
          refine returns_getInode ?_
          rw [hat4.nlink]
          split_ifs with hlink
          · exact returns_kpanic
          · refine returns_seq (returns_unlinkable hw4 hat4) ?_
            rintro ok s5 ⟨rfl, hempty⟩
            cases ok with
            | true =>
              rw [hinum] at hat4
              have hdp4 : At sb s5 y.1 _ x :=
                At.still hat2 hs24 bump_pos hw4.cache (bump_pos_of_pos bump_pos)
              rw [hoff]
              exact hentry y.1 z.1 _ _ m y.2 z' x s5 hw4 hheld4 hs04 hdp4 hat4 hne hdir hm rfl hdots hlink (hempty rfl)
            | false =>
              have hheld5 : Held sb (bump H y.1) s5 := hheld3.frame hs34.toFrame hs34.view fun _ hl => hl
              refine returns_seq (iunlockput_back hw4 hheld5) ?_
              rintro _ s6 ⟨hw6, hs6⟩
              have hs26 : Still H s2 s6 := (hs24.trans hs6).mono fun _ => bump_pos_of_pos
              have hheld6 : Held sb H s6 := hheld2.frame hs26.toFrame hs26.view fun _ hl => hl
              exact returns_exit hw6 hheld6 fun t hw hs => hfail _ t hw (hs02.trans (hs26.trans hs))

theorem sysUnlinkEntry_zero {off : Nat} : Returns (fun r _ => r = 0) (sysUnlinkEntry dp ip off) s := by
  refine returns_seq returns_any fun r s1 _ => ?_
  split_ifs with h16
  · exact returns_kpanic
  · refine returns_getInode (returns_skip fun _ _ => returns_skip fun _ _ =>
      returns_skip fun _ _ => returns_skip fun _ _ => returns_skip fun _ _ =>
      returns_endOp rfl)

/-- **`unlink`** that fails has changed nothing. -/
theorem sysUnlink_fails {path : Option (List UInt8)} (h : World sb True H s) (hcwd : CwdHeld H s p) :
    Returns (fun r s' => r < 0 → s'.view = s.view) (sysUnlink p path) s := by
  refine returns_sysUnlink h hcwd (fun _ => rfl) (fun _ t _ hs _ => (left_view t).trans hs.view) ?_
  intro dp ip d i m name x y t _ _ _ _ _ _ _ _ _ _ _ _
  exact returns_mono sysUnlinkEntry_zero fun r _ hr hneg => absurd hneg (by rw [hr]; decide)

/-! ## `link` -/

theorem Held.sameNodes (h : Held sb H s) (hf : Frame H s s') (hn : nodes sb s'.view = nodes sb s.view) :
    Held sb H s' := by
  intro j z hz h0
  rw [hn] at hz
  obtain ⟨l, hl, hinum, hvalid⟩ := h j z hz h0
  exact ⟨l, hl, (hf.inum l hl).trans hinum, hf.valid l hl hvalid⟩

theorem node_device (h : nodes sb s.view i = some x) :
    x.major = (dino sb s.view i).major ∧ x.minor = (dino sb s.view i).minor ∧ x.nlink = (dino sb s.view i).nlink := by
  have h0 := (nodesOf_some h).1
  rw [nodes, nodesOf, if_neg h0] at h
  cases h
  exact ⟨rfl, rfl, rfl⟩

/-- Fields of an inode have changed and gone to the disk. -/
theorem setFields_changes {u : Unit} (f : Dinode → Dinode) (hd : Disk sb s.view) (hsb : s.mem.sb = sb)
    (hat : At sb s k i x) (htype : ∀ d, (f d).type = d.type) (haddrs : ∀ d, (f d).addrs = d.addrs)
    (hsize : ∀ d, (f d).size = d.size) (hrun : exec (modDin k f >>= fun _ => iupdate k >>= pure) s = .done u s') :
    Changes sb s k i (some { x with
      major := (f (dino sb s.view i)).major
      minor := (f (dino sb s.view i)).minor
      nlink := (f (dino sb s.view i)).nlink }) s' :=
  does_exec (Q := fun _ t => Changes sb s k i _ t) (does_setFields (W := Set.univ) (N := True) hd hsb hat.inum
    hat.din.symm hat.node htype haddrs hsize trivial fun _ ht => does_pure ht) hrun

theorem returns_setFields {β : Type} {Q : β → LState → Prop} {c : Unit → K β} (f : Dinode → Dinode)
    (hd : Disk sb s.view) (hsb : s.mem.sb = sb) (hat : At sb s k i x)
    (htype : ∀ d, (f d).type = d.type) (haddrs : ∀ d, (f d).addrs = d.addrs) (hsize : ∀ d, (f d).size = d.size)
    (hc : ∀ s', Changes sb s k i (some { x with
        major := (f (dino sb s.view i)).major
        minor := (f (dino sb s.view i)).minor
        nlink := (f (dino sb s.view i)).nlink }) s' → Returns Q (c ()) s') :
    Returns Q (modDin k f >>= fun _ => iupdate k >>= c) s := by
  intro b s' hrun
  obtain ⟨_, s1, hr1, hrest⟩ := exec_bind_done.mp hrun
  obtain ⟨_, s2, hr2, hr3⟩ := exec_bind_done.mp hrest
  exact hc s2 (setFields_changes f hd hsb hat htype haddrs hsize
    (exec_bind_done.mpr ⟨_, s1, hr1, exec_bind_done.mpr ⟨_, s2, hr2, rfl⟩⟩)) b s' hr3

/-- The link count of an inode changes and goes to the disk. -/
theorem returns_nlink {β : Type} {Q : β → LState → Prop} {c : Unit → K β} (h : World sb True H s) (hk : 0 < H k)
    (hat : At sb s k i x) (g : Int16 → Int16) (hc : ∀ s', World sb True H s' → Frame H s s' →
      nodes sb s'.view = update (nodes sb s.view) i (some { x with nlink := g x.nlink }) →
      Returns Q (c ()) s') :
    Returns Q (modDin k (fun d => { d with nlink := g d.nlink }) >>= fun _ => iupdate k >>= c) s := by
  refine returns_setFields _ h.disk h.super hat (fun _ => rfl) (fun _ => rfl) (fun _ => rfl) fun s2 hchange => ?_
  obtain ⟨hmajor, hminor, hnlink⟩ := node_device hat.node
  rw [← hmajor, ← hminor, ← hnlink] at hchange
  have hw := (h.changes hk hat hchange (h.dirs i x hat.node) fun hN => absurd trivial hN).1
  exact hc s2 hw (frame_changes hchange) hchange.nodes

/-- The exit `bad:` of `link`: the link count is as it was. -/
theorem sysLinkBad_back {s0 : LState} (h : World sb True (bump H ip) s) (h0 : Held sb H s0)
    (hf : Frame H s0 s) (hinum : (s.mem.icache ip).inum = i) (hx : nodes sb s0.view i = some x)
    (hup : nodes sb s.view = update (nodes sb s0.view) i (some { x with nlink := x.nlink + 1 }))
    (hq : ∀ t, World sb True H t → Frame H s0 t → nodes sb t.view = nodes sb s0.view → Q EEXIST (left t)) :
    Returns Q (sysLinkBad ip) s := by
  refine returns_seq (returns_ilock h bump_pos) ?_
  rintro _ s1 ⟨hw1, hs1, -, -, y, hat⟩
  rw [hinum] at hat
  have hy : y = { x with nlink := x.nlink + 1 } := by
    have hnode := hat.node
    rw [hs1.view, hup, update_self] at hnode
    exact (some.inj hnode).symm
  refine returns_nlink hw1 bump_pos hat (fun n => n - 1) fun s2 hw2 hf2 hn2 => ?_
  have hnodes : nodes sb s2.view = nodes sb s0.view := by
    have hxx : ({ y with nlink := y.nlink - 1 } : Node) = x := by
      rw [hy]
      rw [Int16.add_sub_cancel]
    rw [hn2, hxx, hs1.view, hup, update_idem, ← hx, update_eq_self]
  have hf02 : Frame H s0 s2 := hf.trans ((hs1.toFrame.trans hf2).mono fun _ => bump_pos_of_pos)
  refine returns_exit hw2 (h0.sameNodes hf02 hnodes) fun t hw hs => hq t hw (hf02.trans hs.toFrame) ?_
  rw [hs.view]
  exact hnodes

/-- **`dirlink`** finds the name and does nothing, or enters it. -/
theorem returns_dirlink {n : Nat} (h : World sb True H s) (hk : 0 < H dp) (hat : At sb s dp d x) :
    Returns (fun r s' => (r = -1 ∧ x.lookup name ≠ none ∧ World sb True H s' ∧ Still H s s') ∨
      (r = 0 ∧ x.type = T_DIR ∧ x.lookup name = none ∧ Changes sb s dp d
        (some (x.setEntry x.freeSlot ⟨ofNat n, strncpyName name⟩)) s')) (dirlink dp name n) s := by
  refine returns_seq (returns_does (W := ∅) (dirlookup_world h hk hat)) ?_
  rintro (_ | z) s1 ⟨hdir, hfound⟩
  · obtain ⟨rfl, hnone⟩ := hfound
    refine returns_mono (returns_does (dirlinkStore_does (N := True) h.disk h.super hat hdir room_univ trivial)) ?_
    exact fun r s2 hr => .inr ⟨hr.1, hdir, hnone, hr.2⟩
  · obtain ⟨m, hm, -, -, hw1, hs1, -⟩ := hfound
    have hput := iput_quiet (W := ∅) hw1 bump_pos
      (by rw [drop_bump]; exact h.held.frame hs1.toFrame hs1.view fun _ hl => hl)
    rw [drop_bump] at hput
    refine returns_seq (returns_does hput) ?_
    rintro _ s2 ⟨hw2, hs2⟩
    exact returns_pure (.inl ⟨rfl, by rw [hm]; exact some_ne_none m, hw2, hs1.trans hs2⟩)

/-- What `link` has done when the new name is in: the inode `i`, which was `x`, has one more link, and the directory `d`,
    which was `y`, has the name. -/
structure Named (sb : Superblock) (H : Fin NINODE → Nat) (T : Nat → Option Node) (ip dp : Fin NINODE) (i d : Nat)
    (x y : Node) (name : List UInt8) (t : LState) : Prop where
  file : T i = some x
  notDir : x.type ≠ T_DIR
  there : T d = some y
  dir : y.type = T_DIR
  absent : y.lookup name = none
  inum : (ofNat i).toNat = i
  pos : 1 ≤ i
  world : World sb True (bump (bump H ip) dp) t
  table : nodes sb t.view = update (update T i (some { x with nlink := x.nlink + 1 })) d
    (some (y.setEntry y.freeSlot ⟨ofNat i, strncpyName name⟩))

/-- The second half of `link`. -/
theorem returns_sysLinkInto {s0 : LState} {new : List UInt8} (h : World sb True (bump H ip) s) (h0 : Held sb H s0)
    (hf : Frame (bump H ip) s0 s) (hcwd : CwdHeld H s p)
    (hinum : (s.mem.icache ip).inum = i) (hx : nodes sb s0.view i = some x) (hfile : x.type ≠ T_DIR)
    (hup : nodes sb s.view = update (nodes sb s0.view) i (some { x with nlink := x.nlink + 1 }))
    (hfail : ∀ t, World sb True H t → Frame H s0 t → nodes sb t.view = nodes sb s0.view → Q EEXIST (left t))
    (hdone : ∀ dp d y name t, Frame (bump H ip) s0 t → Named sb H (nodes sb s0.view) ip dp i d x y name t →
      Returns Q (iunlockput dp >>= fun _ => iput ip >>= fun _ => endOp >>= fun _ => pure 0) t) :
    Returns Q (sysLinkInto p ip new) s := by
  have hbad : ∀ t, World sb True (bump H ip) t → Still (bump H ip) s t → Returns Q (sysLinkBad ip) t := by
    intro t hw hs
    exact sysLinkBad_back hw h0 ((hf.trans hs.toFrame).mono fun _ => bump_pos_of_pos)
      ((hs.inum ip bump_pos).trans hinum) hx (by rw [hs.view]; exact hup) hfail
  refine returns_seq (returns_nameiparent h fun k hk => bump_pos_of_pos (hcwd k hk)) ?_
  rintro (_ | y) s1 hwalk
  · exact hbad s1 hwalk.1 hwalk.2.1
  · obtain ⟨hw1, hs1, -⟩ := hwalk
    refine returns_seq (returns_ilock hw1 bump_pos) ?_
    rintro _ s2 ⟨hw2, hs2, -, -, z, hat2⟩
    have hs02 : Still (bump H ip) s s2 := hs1.trans (hs2.mono fun _ => bump_pos_of_pos)
    -- after the directory is given back
    have hback : ∀ t, World sb True (bump (bump H ip) y.1) t → Still (bump (bump H ip) y.1) s2 t →
        Returns Q (iunlockput y.1 >>= fun _ => sysLinkBad ip) t := by
      intro t hw hs
      have hst : Still (bump H ip) s t := hs02.trans (hs.mono fun _ => bump_pos_of_pos)
      refine returns_seq (iunlockput_back hw (h.held.frame hst.toFrame hst.view fun _ hl => hl)) ?_
      rintro _ t' ⟨hw', hs'⟩
      exact hbad t' hw' (hst.trans hs')
    refine returns_getInode (returns_getInode ?_)
    split_ifs with hdev
    · exact hback s2 hw2 Still.refl
    · rw [hs02.inum ip bump_pos, hinum]
      refine returns_seq (returns_dirlink hw2 bump_pos hat2) ?_
      rintro r s3 (⟨rfl, -, hw3, hs3⟩ | ⟨rfl, hdir, hnone, hc3⟩)
      · exact hback s3 hw3 hs3
      · have hnode := hat2.node
        rw [hs02.view, hup] at hnode
        have hne : (s1.mem.icache y.1).inum ≠ i := by
          intro heq
          rw [heq, update_self] at hnode
          rw [← some.inj hnode] at hdir
          exact hfile hdir
        rw [update_of_ne hne] at hnode
        obtain ⟨-, hi1, hi2⟩ := node_some hx
        have hinums := hw2.disk.layout.inums
        have hnum : (ofNat i).toNat = i := by
          rw [toNat_ofNat']
          omega
        have hw3 := (hw2.changes bump_pos hat2 hc3 (fun _ => dirOk_setEntry (hw2.dirs _ z hat2.node hdir) freeSlot_le
          (by rw [hnum]; exact hi2)) fun hN => absurd trivial hN).1
        refine hdone y.1 (s1.mem.icache y.1).inum z y.2 s3 (hf.trans (hs02.toFrame.trans (frame_changes hc3))) ?_
        exact ⟨hx, hfile, hnode, hdir, hnone, hnum, hi1, hw3, by rw [hc3.nodes, hs02.view, hup]⟩

section

variable (h : World sb True H s) (hcwd : CwdHeld H s p)
include h hcwd

/-- `link`, up to the point where the new name is in. -/
theorem returns_sysLink {Q : Int → LState → Prop} {old new : Option (List UInt8)} (hno : Q EINVAL s)
    (hfail : ∀ e t, e < 0 → World sb True H t → Frame H (entered s) t → nodes sb t.view = nodes sb s.view →
      Q e (left t)) (hdone : ∀ ip dp i d x y name name' path t, Frame H (entered s) t → old = some path →
      resolve sb s p path false = some (i, name') → Named sb H (nodes sb s.view) ip dp i d x y name t →
      Returns Q (iunlockput dp >>= fun _ => iput ip >>= fun _ => endOp >>= fun _ => pure 0) t) :
    Returns Q (sysLink p old new) s := by
  cases old with
  | none => exact returns_pure hno
  | some old =>
    cases new with
    | none => exact returns_pure hno
    | some new =>
      refine returns_beginOp (returns_seq (returns_does (W := ∅) (namei_world h.entered hcwd)) ?_)
      rintro (_ | ip) s1 hwalk
      · obtain ⟨hw1, hs1, -⟩ := hwalk
        exact returns_endOp (hfail _ s1 (by decide) hw1 hs1.toFrame (by rw [hs1.view]; rfl))
      · obtain ⟨hw1, hs1, name', hres⟩ := hwalk
        refine returns_seq (returns_ilock hw1 bump_pos) ?_
        rintro _ s2 ⟨hw2, hs2, -, -, x, hat2⟩
        have hs02 : Still H (entered s) s2 := hs1.trans (hs2.mono fun _ => bump_pos_of_pos)
        have hheld2 : Held sb H s2 := h.entered.held.frame hs02.toFrame hs02.view fun _ hl => hl
        have hview2 : s2.view = s.view := hs02.view
        refine returns_getInode ?_
        rw [hat2.type]
        split_ifs with hdir
        · refine returns_exit hw2 hheld2 fun t hw hs => hfail _ t (by decide) hw (hs02.trans hs).toFrame ?_
          rw [hs.view, hview2]
        · refine returns_nlink hw2 bump_pos hat2 (fun n => n + 1) fun s3 hw3 hf3 hn3 => ?_
          refine returns_seq (returns_does (W := ∅) (iunlock_world hw3 bump_pos)) ?_
          rintro _ s4 ⟨hw4, hs4⟩
          have hf24 : Frame (bump H ip) s2 s4 := hf3.trans hs4.toFrame
          have hinum4 : (s4.mem.icache ip).inum = (s1.mem.icache ip).inum :=
            (hs4.inum ip bump_pos).trans ((hf3.inum ip bump_pos).trans hat2.inum)
          have hcwd4 : ∀ k, (s4.mem.ptable p).cwd = some k → 0 < H k := by
            rw [hf24.outer.ptable, hs02.outer.ptable]
            exact hcwd
          refine returns_sysLinkInto hw4 hheld2 hf24 hcwd4 hinum4 hat2.node hdir (by rw [hs4.view]; exact hn3) ?_ ?_
          · intro t hw hf hn
            exact hfail _ t (by decide) hw (hs02.toFrame.trans hf) (by rw [hn, hview2])
          · intro dp d y name t hft ht
            rw [hview2] at ht
            exact hdone ip dp _ d x y name name' old t
              (hs02.toFrame.trans (hft.mono fun _ => bump_pos_of_pos)) rfl hres ht

/-- **`link`** that fails has left every node as it was. -/
theorem sysLink_fails {old new : Option (List UInt8)}
    : Returns (fun r s' => r < 0 → nodes sb s'.view = nodes sb s.view) (sysLink p old new) s := by
  refine returns_sysLink h hcwd (fun _ => rfl) (fun _ t _ _ _ hn _ => by rw [left_view]; exact hn) ?_
  intro ip dp i d x y name name' path t _ _ _ _
  exact returns_skip fun _ _ => returns_skip fun _ _ =>
    returns_endOp fun hr => absurd hr (by decide)

/-! ## `create` -/

/-- `create`, up to the point where it makes a new inode. -/
theorem returns_create {Q : Option (Fin NINODE) → LState → Prop} {type major minor : Int16}
    (hno : ∀ s', ¬ NewName sb s p path → Still H s s' → Q none s')
    (hold : ∀ k s', ¬ NewName sb s p path → World sb True (bump H k) s' → Held sb H s' → Still H s s' → Q (some k) s')
    (hnew : ∀ dp d name x s', NewName sb s p path → World sb True (bump H dp) s' → Held sb H s' → Still H s s' →
      At sb s' dp d x → x.type = T_DIR → x.lookup name = none → Returns Q (createNew dp name type major minor) s') :
    Returns Q (create p path type major minor) s := by
  refine returns_seq (returns_nameiparent h hcwd) ?_
  rintro (_ | y) s1 hwalk
  · refine returns_pure (hno s1 ?_ hwalk.2.1)
    rintro ⟨d, name, x, hres, -⟩
    cases hwalk.2.2.symm.trans hres
  · obtain ⟨hw1, hs1, hres⟩ := hwalk
    refine returns_seq (returns_ilock hw1 bump_pos) ?_
    rintro _ s2 ⟨hw2, hs2, -, -, x, hat2⟩
    have hs02 : Still H s s2 := hs1.trans (hs2.mono fun _ => bump_pos_of_pos)
    have hheld2 : Held sb H s2 := h.held.frame hs02.toFrame hs02.view fun _ hl => hl
    have hnode : nodes sb s.view (s1.mem.icache y.1).inum = some x := by
      rw [← hs02.view]
      exact hat2.node
    refine returns_seq (returns_does (W := ∅) (dirlookup_world hw2 bump_pos hat2)) ?_
    rintro (_ | z) s3 ⟨hdir, hfound⟩
    · obtain ⟨rfl, hnone⟩ := hfound
      exact hnew y.1 _ y.2 x s3 ⟨_, _, x, hres, hnode, hnone⟩ hw2 hheld2 hs02 hat2 hdir hnone
    · obtain ⟨m, hm, -, -, hw3, hs3, -⟩ := hfound
      have hs03 : Still H s s3 := hs02.trans (hs3.mono fun _ => bump_pos_of_pos)
      have hheld3 : Held sb H s3 := h.held.frame hs03.toFrame hs03.view fun _ hl => hl
      have hput := iunlockput_quiet (W := ∅) hw3 (bump_pos_of_pos bump_pos)
        (by rw [drop_bump_bump]; exact hheld3.frame Frame.refl rfl fun _ => bump_pos_of_pos)
      rw [drop_bump_bump] at hput
      refine returns_seq (returns_does hput) ?_
      rintro _ s4 ⟨hw4, hs4⟩
      refine returns_seq (returns_ilock hw4 bump_pos) ?_
      rintro _ s5 ⟨hw5, hs5, -⟩
      have hs05 : Still H s s5 := hs03.trans ((hs4.trans hs5).mono fun _ => bump_pos_of_pos)
      have hheld5 : Held sb H s5 := h.held.frame hs05.toFrame hs05.view fun _ hl => hl
      have hthere : ¬ NewName sb s p path := by
        rintro ⟨d, name, x', hres', hx', hnone⟩
        rw [hres] at hres'
        cases hres'
        rw [hnode] at hx'
        cases hx'
        cases hm.symm.trans hnone
      refine returns_getInode ?_
      split_ifs with hfile
      · exact returns_pure (hold z.1 s5 hthere hw5 hheld5 hs05)
      · refine returns_seq (iunlockput_back hw5 hheld5) ?_
        rintro _ s6 ⟨-, hs6⟩
        exact returns_pure (hno s6 hthere (hs05.trans hs6))

end

/-- The new inode of a file, when its fields are on the disk. -/
def newFile : Node := ⟨T_FILE, 0, 0, 1, 0, fun _ => 0⟩

theorem returns_dirlink_new {n : Nat} (h : World sb True H s) (hk : 0 < H dp) (hat : At sb s dp d x)
    (hnone : x.lookup name = none) :
    Returns (fun r s' => r = 0 ∧ Changes sb s dp d (some (x.setEntry x.freeSlot ⟨ofNat n, strncpyName name⟩)) s')
      (dirlink dp name n) s := by
  refine returns_mono (returns_dirlink h hk hat) ?_
  rintro r s' (⟨-, hsome, -⟩ | ⟨hr, -, -, hc⟩)
  · exact absurd hnone hsome
  · exact ⟨hr, hc⟩

theorem not_lt_entries {type : Int16} {m : Nat} (h : m < (⟨type, 0, 0, 0, 0, fun _ => 0⟩ : Node).entries) : False := by
  have h0 : m < 0 / 16 := h
  omega

/-- The new inode is locked: it is in its slot, without links. -/
theorem Allocated.locked {N : Prop} {type : Int16} {s1 s2 : LState} {n : Nat} (h : World sb N H s)
    (ha : Allocated sb N H s type n k s1)
    (hs2 : s2 = setInode s1 k (Xv6Inode.locked sb s1.view (s1.mem.icache k))) (hcache : Cache sb N (bump H k) s2) :
    World sb N (bump H k) s2 ∧ At sb s2 k n ⟨type, 0, 0, 0, 0, fun _ => 0⟩ ∧ Frame H s s2 ∧
      nodes sb s2.view = update (nodes sb s.view) n (some ⟨type, 0, 0, 0, 0, fun _ => 0⟩) := by
  have hst : Still (bump H k) s1 s2 := by
    rw [hs2]
    exact still_setInode rfl fun _ => rfl
  have hf : Frame H s s2 := (frame_keep ha.outer ha.keep).trans (hst.toFrame.mono fun _ => bump_pos_of_pos)
  have hinum : (s2.mem.icache k).inum = n := (hst.inum k bump_pos).trans ha.inum
  have hvalid : (s2.mem.icache k).valid = true := by
    rw [hs2, setInode_same]
    rfl
  have hn : nodes sb s2.view = update (nodes sb s.view) n (some ⟨type, 0, 0, 0, 0, fun _ => 0⟩) := by
    rw [hst.view]
    exact ha.nodes
  refine ⟨⟨hf.outer.sb.trans h.super, by rw [hst.view]; exact ha.disk, hcache, ?_, ?_, ?_⟩,
    ⟨hinum, hvalid, hinum ▸ (hcache.sync k bump_pos hvalid).1, by rw [hn, update_self]⟩, hf, hn⟩
  · intro d z hz htype
    rw [hn, update_apply] at hz
    split_ifs at hz
    · cases hz
      exact fun m hm => (not_lt_entries hm).elim
    · exact h.dirs d z hz htype
  · intro j z hz h0
    by_cases hj : j = n
    · rw [hj]
      exact ⟨k, bump_pos, hinum, hvalid⟩
    · rw [hn, update_of_ne hj] at hz
      obtain ⟨l, hl, hinum, hvalid⟩ := h.held j z hz h0
      exact ⟨l, bump_pos_of_pos hl, (hf.inum l hl).trans hinum, hf.valid l hl hvalid⟩
  · intro hN
    rw [hn]
    exact (h.sound hN).update fun _ m hm => (not_lt_entries hm).elim

/-- The new inode is on the disk, with one link and without a name. -/
structure Stored (sb : Superblock) (H : Fin NINODE → Nat) (s : LState) (dp : Fin NINODE) (d : Nat) (x : Node) (n : Nat)
    (k : Fin NINODE) (s' : LState) : Prop where
  world : World sb True (bump (bump H dp) k) s'
  frame : Frame (bump H dp) s s'
  dir : At sb s' dp d x
  inum : (s'.mem.icache k).inum = n
  table : nodes sb s'.view = update (nodes sb s.view) n (some newFile)
  absent : nodes sb s.view n = none

theorem Allocated.stored {N : Prop} {s1 s2 s3 : LState} {n : Nat} (h : World sb N (bump H dp) s) (hat : At sb s dp d x)
    (ha : Allocated sb N (bump H dp) s T_FILE n k s1)
    (hs2 : s2 = setInode s1 k (Xv6Inode.locked sb s1.view (s1.mem.icache k)))
    (hcache : Cache sb N (bump (bump H dp) k) s2) (hc : Changes sb s2 k n (some newFile) s3) :
    Stored sb H s dp d x n k s3 := by
  obtain ⟨hw2, hat2, hf02, hnodes2⟩ := Allocated.locked h ha hs2 hcache
  have hnot : nodes sb s.view n = none := nodesOf_none.mpr ha.first.free
  have hnodes3 : nodes sb s3.view = update (nodes sb s.view) n (some newFile) := by
    rw [hc.nodes, hnodes2, update_idem]
  have hf03 : Frame (bump H dp) s s3 := hf02.trans (frame_changes hc)
  obtain ⟨hw3, hat3⟩ := hw2.loosen.changes bump_pos hat2 hc (fun hd => absurd hd (by decide)) fun hN => absurd trivial hN
  have hdn : d ≠ n := by
    rintro rfl
    cases hnot.symm.trans hat.node
  refine ⟨hw3, hf03, ?_, hat3.inum, hnodes3, hnot⟩
  exact At.frame hat hf03 bump_pos hw3.cache (bump_pos_of_pos bump_pos)
    (by rw [hnodes3, update_of_ne hdn]; exact hat.node)

/-- The name of the new inode is entered: `World` again, with one more reference than before. -/
theorem Stored.named {s3 s4 : LState} {n : Nat} (hn : n < sb.ninodes) (hinums : sb.ninodes ≤ 65536)
    (hs : Stored sb H s dp d x n k s3) (hheld : Held sb H s) (hdir : x.type = T_DIR) (hok : DirOk sb x)
    (hc : Changes sb s3 dp d (some (x.setEntry x.freeSlot ⟨ofNat n, strncpyName name⟩)) s4) :
    World sb True (bump (bump H dp) k) s4 ∧ Held sb H s4 ∧ Frame (bump H dp) s s4 ∧
      nodes sb s4.view n = some newFile := by
  have hlt : (ofNat n).toNat < sb.ninodes := by
    rw [toNat_ofNat']
    omega
  have hdn : d ≠ n := by
    rintro rfl
    have hnode := hs.dir.node
    rw [hs.table, update_self] at hnode
    have htype : newFile.type = x.type := congrArg Node.type (some.inj hnode)
    exact absurd (htype.trans hdir) (by decide)
  have hx : nodes sb s.view d = some x := by
    have hnode := hs.dir.node
    rw [hs.table, update_of_ne hdn] at hnode
    exact hnode
  have hw4 := (hs.world.changes (bump_pos_of_pos bump_pos) hs.dir hc (fun _ => dirOk_setEntry hok freeSlot_le hlt)
    fun hN => absurd trivial hN).1
  have hf04 : Frame (bump H dp) s s4 := hs.frame.trans (frame_changes hc)
  have hf : Frame H s s4 := hf04.mono fun _ => bump_pos_of_pos
  refine ⟨hw4, ?_, hf04, by rw [hc.nodes, update_of_ne hdn.symm, hs.table, update_self]⟩
  -- whoever held an inode without links before still does
  have hold : ∀ j z, nodes sb s.view j = some z → z.nlink = 0 →
      ∃ l, 0 < H l ∧ (s4.mem.icache l).inum = j ∧ (s4.mem.icache l).valid = true := by
    intro j z hz h0
    obtain ⟨l, hl, hinum, hvalid⟩ := hheld j z hz h0
    exact ⟨l, hl, (hf.inum l hl).trans hinum, hf.valid l hl hvalid⟩
  intro j z hz h0
  rw [hc.nodes, update_apply] at hz
  split_ifs at hz with hjd
  · cases hz
    rw [hjd]
    exact hold d x hx h0
  · rw [hs.table, update_apply] at hz
    split_ifs at hz
    · cases hz
      exact absurd h0 (by decide)
    · exact hold j z hz h0

/-- **`create` of a new file** leaves an inode that was not there. -/
theorem createNew_file (h : World sb True (bump H dp) s) (hheld : Held sb H s) (hat : At sb s dp d x)
    (hdir : x.type = T_DIR) (hnone : x.lookup name = none) :
    Returns (fun o s' => ∃ k, o = some k ∧ World sb True (bump H k) s' ∧ Held sb H s' ∧ Outer s s' ∧
      ∃ n, nodes sb s.view n = none ∧ nodes sb s'.view n = some newFile) (createNew dp name T_FILE 0 0) s := by
  refine returns_getInode ?_
  rw [h.cache.dev dp bump_pos]
  refine returns_seq (returns_does (W := Set.univ) (ialloc_does (N := True) h.super h.disk h.cache
    (by decide) fun _ _ => trivial)) ?_
  rintro k s1 ⟨n, ha⟩
  refine returns_seq (returns_does (W := Set.univ) (ilock_does (ha.outer.sb.trans h.super) ha.cache bump_pos)) ?_
  rintro _ s2 ⟨hs2, -, -, hcache2⟩
  obtain ⟨hw2, hat2, -⟩ := Allocated.locked h ha hs2 hcache2
  refine returns_setFields _ hw2.disk hw2.super hat2 (fun _ => rfl) (fun _ => rfl) (fun _ => rfl) fun s3 hc3 => ?_
  have hs3 : Stored sb H s dp d x n k s3 := Allocated.stored h hat ha hs2 hcache2 hc3
  refine returns_seq (R := fun _ t => s3 = t) (returns_pure rfl) ?_
  rintro _ _ rfl
  refine returns_getInode ?_
  rw [hs3.inum]
  refine returns_seq (returns_dirlink_new hs3.world (bump_pos_of_pos bump_pos) hs3.dir hnone) ?_
  rintro _ s4 ⟨rfl, hc4⟩
  obtain ⟨hw4, hheld4, hf4, hthere⟩ := hs3.named ha.first.lt h.disk.layout.inums hheld hdir
    (h.dirs d x hat.node hdir) hc4
  have hput := iunlockput_quiet (W := ∅) hw4 (bump_pos_of_pos bump_pos)
    (by rw [drop_bump_bump]; exact hheld4.frame Frame.refl rfl fun _ => bump_pos_of_pos)
  rw [drop_bump_bump] at hput
  refine returns_seq (returns_does hput) ?_
  rintro _ s5 ⟨hw5, hs5⟩
  have hs5' : Still H s4 s5 := hs5.mono fun _ => bump_pos_of_pos
  refine returns_pure ⟨k, rfl, hw5, hheld4.frame hs5'.toFrame hs5.view fun _ hl => hl, hf4.outer.trans hs5.outer,
    n, hs3.absent, ?_⟩
  rw [hs5.view]
  exact hthere

/-! ## `mkdir` and `mknod` -/

theorem createNew_some {type major minor : Int16} :
    Returns (fun o _ => o ≠ none) (createNew dp name type major minor) s := by
  refine returns_getInode (returns_seq returns_any fun ip _ _ => returns_skip fun _ _ => returns_skip fun _ _ =>
    returns_skip fun _ _ => returns_skip fun _ _ => returns_getInode (returns_seq returns_any fun r s1 _ => ?_))
  split_ifs with hr
  · exact returns_kpanic
  · exact returns_skip fun _ _ => returns_pure nofun

/-- **`mkdir` and `mknod`** that fail have changed nothing. -/
theorem sysCreate_fails {path : Option (List UInt8)} {type major minor : Int16} {err : Int} (h : World sb True H s)
    (hcwd : CwdHeld H s p) :
    Returns (fun r s' => r < 0 → s'.view = s.view) (sysCreate p path type major minor err) s := by
  refine returns_beginOp ?_
  cases path with
  | none => exact returns_endOp fun _ => left_view _
  | some path =>
    refine returns_seq (returns_create (Q := fun o s' => o = none → s'.view = s.view) h.entered hcwd
      (fun _ _ hs _ => hs.view) nofun
      fun _ _ _ _ _ _ _ _ _ _ _ _ => returns_mono createNew_some fun _ _ ho hn => absurd hn ho) ?_
    rintro (_ | ip) s1 hv
    · exact returns_endOp fun _ => (left_view s1).trans (hv rfl)
    · exact returns_skip fun _ _ => returns_endOp fun hr => absurd hr (by decide)

/-! ## `open` -/

/-- The inode that `open` goes on with, and whether it has just been made. -/
def Opened (sb : Superblock) (H : Fin NINODE → Nat) (s : LState) (p : Fin NPROC) (path : List UInt8) (omode : UInt32) :
    Except Int (Fin NINODE) → LState → Prop
  | .error _, s' => s'.view = s.view ∧ ¬ (omode &&& O_CREATE ≠ 0 ∧ NewName sb s p path)
  | .ok ip, s' => World sb True (bump H ip) s' ∧ Held sb H s' ∧ Outer s s' ∧
      (nodes sb s'.view = nodes sb s.view ↔ ¬ (omode &&& O_CREATE ≠ 0 ∧ NewName sb s p path))

theorem returns_sysOpenInode {omode : UInt32} (h : World sb True H s) (hcwd : CwdHeld H s p) :
    Returns (Opened sb H s p path omode) (sysOpenInode p path omode) s := by
  rw [sysOpenInode]
  split_ifs with hcreate
  · refine returns_seq (R := fun o s' => o.elim (s'.view = s.view ∧ ¬ NewName sb s p path) fun ip =>
      Opened sb H s p path omode (.ok ip) s') (returns_create h hcwd ?_ ?_ ?_) ?_
    · exact fun _ hn hs => ⟨hs.view, hn⟩
    · intro k s' hn hw hheld hs
      refine ⟨hw, hheld, hs.outer, ?_⟩
      rw [hs.view]
      exact ⟨fun _ hc => hn hc.2, fun _ => rfl⟩
    · intro dp d name x s1 hn hw hheld hs hat hdir hnone
      refine returns_mono (createNew_file hw hheld hat hdir hnone) ?_
      rintro _ s2 ⟨k, rfl, hw2, hheld2, ho2, n, hfree, hthere⟩
      refine ⟨hw2, hheld2, hs.outer.trans ho2, fun heq => ?_, fun hc => absurd ⟨hcreate, hn⟩ hc⟩
      rw [hs.view, ← heq, hthere] at hfree
      cases hfree
    · rintro (_ | ip) s1 hr
      · exact returns_endOp ⟨(left_view s1).trans hr.1, fun hc => hr.2 hc.2⟩
      · exact returns_pure hr
  · refine returns_seq (returns_does (W := ∅) (namei_world h hcwd)) ?_
    rintro (_ | ip) s1 hwalk
    · exact returns_endOp ⟨(left_view s1).trans hwalk.2.1.view, fun hc => hcreate hc.1⟩
    · obtain ⟨hw1, hs1, -⟩ := hwalk
      refine returns_seq (returns_ilock hw1 bump_pos) ?_
      rintro _ s2 ⟨hw2, hs2, -⟩
      have hs02 : Still H s s2 := hs1.trans (hs2.mono fun _ => bump_pos_of_pos)
      have hheld2 : Held sb H s2 := h.held.frame hs02.toFrame hs02.view fun _ hl => hl
      refine returns_getInode ?_
      split_ifs with hdir
      · refine returns_seq (iunlockput_back hw2 hheld2) ?_
        rintro _ s3 ⟨-, hs3⟩
        exact returns_endOp ⟨(left_view s3).trans (hs02.trans hs3).view, fun hc => hcreate hc.1⟩
      · refine returns_pure ⟨hw2, hheld2, hs02.outer, ?_⟩
        rw [hs02.view]
        exact ⟨fun _ hc => hcreate hc.1, fun _ => rfl⟩

theorem returns_filealloc : Returns (fun o s' => match o with
    | none => s' = s ∧ ∀ f, (s.mem.ftable f).ref ≠ 0
    | some f => (s.mem.ftable f).ref = 0 ∧ s' = { s with mem := { s.mem with
          ftable := update s.mem.ftable f { s.mem.ftable f with ref := 1 } } }) filealloc s := by
  refine returns_getMem ?_
  cases hf : firstIdx (fun f : Fin NFILE => decide ((s.mem.ftable f).ref = 0)) with
  | none => exact returns_pure ⟨rfl, fun f => of_decide_eq_false (firstIdx_none hf f)⟩
  | some f => exact returns_modMem (returns_pure ⟨of_decide_eq_true (firstIdx_some hf), rfl⟩)

theorem returns_fdalloc {f : Fin NFILE} : Returns (fun o s' => o = none → s' = s ∧ ∀ fd, (s.mem.ptable p).ofile fd ≠ none)
    (fdalloc p f) s := by
  refine returns_getProc ?_
  cases hfd : firstIdx (fun fd : Fin NOFILE => ((s.mem.ptable p).ofile fd).isNone) with
  | none =>
    refine returns_pure fun _ => ⟨rfl, fun fd hn => ?_⟩
    have := firstIdx_none hfd fd
    rw [hn] at this
    cases this
  | some fd => exact returns_modMem (returns_pure nofun)

/-- A file structure that was free goes back without a trace. -/
theorem returns_fileclose {f : Fin NFILE} (href : (s.mem.ftable f).ref = 1) (htype : (s.mem.ftable f).type = .none) :
    Returns (fun _ s' => s'.view = s.view ∧ s'.mem.sb = s.mem.sb ∧ s'.mem.icache = s.mem.icache) (fileclose f) s := by
  refine returns_getFile ?_
  rw [if_neg (by rw [href]; decide), if_neg (by rw [href]; decide)]
  refine returns_modMem ?_
  rw [fileRelease, htype]
  exact returns_pure ⟨rfl, rfl, rfl⟩

theorem returns_sysOpenFile (hfile : ∀ f, (s.mem.ftable f).ref = 0 → (s.mem.ftable f).type = .none) :
    Returns (fun o s' => o = none → s'.view = s.view ∧ s'.mem.sb = s.mem.sb ∧ s'.mem.icache = s.mem.icache ∧
      NoDescriptor s p) (sysOpenFile p) s := by
  refine returns_seq returns_filealloc ?_
  rintro (_ | f) s1 halloc
  · obtain ⟨rfl, hall⟩ := halloc
    exact returns_pure fun _ => ⟨rfl, rfl, rfl, .inl hall⟩
  · obtain ⟨href, rfl⟩ := halloc
    refine returns_seq returns_fdalloc ?_
    rintro (_ | fd) s2 hfd
    · obtain ⟨rfl, hall⟩ := hfd rfl
      refine returns_seq (returns_fileclose ?_ ?_) ?_
      · show (update s.mem.ftable f _ f).ref = 1
        rw [update_self]
      · show (update s.mem.ftable f _ f).type = .none
        rw [update_self]
        exact hfile f href
      · rintro _ s3 ⟨hview, hsb, hic⟩
        exact returns_pure fun _ => ⟨hview, hsb, hic, .inr hall⟩
    · exact returns_pure nofun

/-- **`open`** that fails has changed something exactly if it has created a file. -/
theorem sysOpen_fails {path : Option (List UInt8)} {omode : UInt32} (h : World sb True H s) (hcwd : CwdHeld H s p)
    (hfile : ∀ f, (s.mem.ftable f).ref = 0 → (s.mem.ftable f).type = .none) :
    Returns (fun r s' => r < 0 → (nodes sb s'.view = nodes sb s.view ↔ ¬ LeavesFile sb s p (.open path omode)))
      (sysOpen p path omode) s := by
  cases path with
  | none => exact returns_pure fun _ => ⟨fun _ hl => hl, fun _ => rfl⟩
  | some path =>
    refine returns_beginOp (returns_seq (returns_sysOpenInode h.entered hcwd) ?_)
    rintro (e | ip) s1 hopen
    · obtain ⟨hview, hn⟩ := hopen
      refine returns_pure fun _ => ?_
      rw [hview]
      exact ⟨fun _ hl => hn ⟨hl.1, hl.2.1⟩, fun _ => rfl⟩
    · obtain ⟨hw1, hheld1, ho1, hiff⟩ := hopen
      refine returns_seq (returns_sysOpenFile (by rw [ho1.ftable]; exact hfile)) ?_
      rintro (_ | y) s2 hfd
      · obtain ⟨hview2, hsb2, hic2, hfull⟩ := hfd rfl
        have hw2 : World sb True (bump H ip) s2 := hw1.same hview2 hsb2 hic2
        have hheld2 : Held sb H s2 := by
          intro j z hz h0
          rw [hview2] at hz
          rw [hic2]
          exact hheld1 j z hz h0
        have hfull' : NoDescriptor s p := by
          rw [NoDescriptor, ho1.ftable, ho1.ptable] at hfull
          exact hfull
        refine returns_exit hw2 hheld2 fun t _ hs _ => ?_
        rw [left_view, hs.view, hview2]
        exact hiff.trans (not_congr ⟨fun hl => ⟨hl.1, hl.2, hfull'⟩, fun hl => ⟨hl.1, hl.2.1⟩⟩)
      · -- the descriptor is the result
        refine returns_skip fun _ _ => returns_skip fun _ _ => returns_skip fun _ _ =>
          returns_skip fun _ _ => returns_pure fun hr => absurd hr ?_
        exact Int.not_lt.mpr (Int.natCast_nonneg _)

end Calls

end Xv6World
