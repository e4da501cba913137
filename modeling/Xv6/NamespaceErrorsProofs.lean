import Xv6.NamespaceCallsProofs

/-!
# Failed calls — the file that `open` leaves

A call that returns an error leaves the table of nodes as it was, except for one: `open` with `O_CREATE` of a new name,
when no file structure or no descriptor is free. The run that shows it starts from an empty disk and a process that has
used up its descriptors. Everything else is there: a slot for the new inode, an inode, a free entry of the root, and
room in the log.
-/

namespace Xv6World

open CmdProg ByteBuf Xv6Disk Xv6Kernel Xv6Fs Xv6Sys Xv6Layout Xv6Own Xv6Inode Xv6Total Function List Option

/-! ## A new file, when nothing is in the way -/

section Total

variable {α β : Type} {sb : Superblock} {N : Prop} {H : Fin NINODE → Nat} {s s' : LState} {k dp : Fin NINODE}
  {p : Fin NPROC} {i d n : Nat} {x : Node} {name path : List UInt8} {Q : β → LState → Prop} {V : Finset Nat}

theorem runs_input {f : UInt32 → K β} (h : Runs (f (s.input 0)) { s with input := fun n => s.input (n + 1) } Q) :
    Runs (input >>= f) s Q := h

theorem runs_bstore {b : Nat} {e : Block} {f : Unit → K β} (h : Runs (f ()) (put s b e) Q) :
    Runs (bstore b e >>= f) s Q := h

theorem runs_logWrite {b : Nat} {f : Unit → K β} (hb : Begun V s) (h : Runs (f ()) (log s b) Q) :
    Runs (logWrite b >>= f) s Q := by
  obtain ⟨a, s', hr, hq⟩ := h
  exact ⟨a, s', exec_bind_done.mpr ⟨_, _, hb.exec_logWrite b, hr⟩, hq⟩

theorem runs_returns {R : α → LState → Prop} {R' : α → LState → Prop} {c : K α} (h : Runs c s R) (hr : Returns R' c s) :
    Runs c s fun a s' => R a s' ∧ R' a s' := by
  obtain ⟨a, s', hrun, hq⟩ := h
  exact ⟨a, s', hrun, hq, hr a s' hrun⟩

/-- The loop of `ialloc` finishes if an inode is free and a slot is unused. -/
theorem iallocLoop_runs {m : Nat} {type : Int16} (hd : Disk sb s.view) (h : Cache sb N H s)
    (hm : m < sb.ninodes) (hfree : (dino sb s.view m).type = 0) (hlog : Begun V s) (hslot : ∃ l, H l = 0) :
    ∀ r n, 1 ≤ n → n ≤ m → m < n + r → Runs (iallocLoop ROOTDEV sb type r n) s fun k s' =>
      (H k = 0 → (s'.mem.icache k).busy = false) ∧ freeBlocks sb s'.view = freeBlocks sb s.view ∧
        ∃ b, s'.lh = absorb s.lh b := by
  intro r
  induction r with
  | zero => intro n _ hn hr; omega
  | succ r ih =>
    intro n h1 hn hr
    have hlt : n < sb.ninodes := by omega
    have hblock : IBLOCK n sb < FSSIZE := by
      have h1 := iblock_lt hd.layout hlt
      have h2 : sb.bmapstart < datastart sb := bmapstart_lt_datastart
      have h3 := hd.layout.data
      have h4 := hd.layout.disk
      omega
    rw [iallocLoop, if_pos hlt]
    refine runs_bread hblock ?_
    rw [(dino_of_range h1 hlt).symm]
    split_ifs with h0
    · refine runs_input (runs_bstore (runs_logWrite (V := V) ?_ (runs_brelse ?_)))
      · exact hlog.same rfl rfl rfl
      · have hcache : Cache sb True H (log (put { s with input := fun n => s.input (n + 1) } (IBLOCK n sb)
            (putDinode (s.view (IBLOCK n sb)) (n % IPB) { Dinode.zero with type := type, mtime := s.input 0 }))
            (IBLOCK n sb)) :=
          cache_ialloc hd h.loosen h1 hlt h0 (d := { Dinode.zero with type := type, mtime := s.input 0 }) rfl rfl rfl rfl
        refine runs_mono (iget_runs hcache h1 hlt (fun hN => absurd trivial hN) (.inr hslot)) ?_
        rintro k s' ⟨hbusy, hg⟩
        refine ⟨hbusy, ?_, IBLOCK n sb, ?_⟩
        · rw [hg.state, setInode_view]
          refine filter_congr fun c hc => ?_
          have hinode := iblock_lt hd.layout hlt
          have hbitmap : sb.bmapstart ≤ BBLOCK c sb := Nat.le_add_left _ _
          have hne : BBLOCK c sb ≠ IBLOCK n sb := by omega
          show (!used sb (update s.view (IBLOCK n sb) _) c) = _
          rw [used_update hne]
        · rw [hg.state, setInode_lh]
          rfl
    · have hne : n ≠ m := by
        rintro rfl
        exact h0 hfree
      exact runs_brelse (ih (n + 1) (by omega) (by omega) (by omega))

theorem ialloc_runs {type : Int16} (hsb : s.mem.sb = sb) (hd : Disk sb s.view) (h : Cache sb N H s)
    (hfree : ∃ m, 1 ≤ m ∧ m < sb.ninodes ∧ (dino sb s.view m).type = 0) (hlog : Begun V s) (hslot : ∃ l, H l = 0) :
    Runs (ialloc ROOTDEV type) s fun k s' =>
      (H k = 0 → (s'.mem.icache k).busy = false) ∧ freeBlocks sb s'.view = freeBlocks sb s.view ∧
        ∃ b, s'.lh = absorb s.lh b := by
  obtain ⟨m, h1, hm, h0⟩ := hfree
  refine runs_getSb ?_
  rw [hsb]
  exact iallocLoop_runs hd h hm h0 hlog hslot _ 1 (le_refl 1) h1 (by omega)

/-- Fields of an inode go to the disk, when the log has room. -/
theorem runs_setFields {c : Unit → K β} (f : Dinode → Dinode) (hd : Disk sb s.view)
    (hsb : s.mem.sb = sb) (hat : At sb s k i x) (hlog : Begun V s)
    (htype : ∀ d, (f d).type = d.type) (haddrs : ∀ d, (f d).addrs = d.addrs) (hsize : ∀ d, (f d).size = d.size)
    (hc : ∀ s', Changes sb s k i (some { x with
        major := (f (dino sb s.view i)).major
        minor := (f (dino sb s.view i)).minor
        nlink := (f (dino sb s.view i)).nlink }) s' → s'.lh = absorb s.lh (IBLOCK i sb) → Runs (c ()) s' Q) :
    Runs (modDin k f >>= fun _ => iupdate k >>= c) s Q := by
  generalize hS : setInode s k { s.mem.icache k with din := f (s.mem.icache k).din } = S
  have hmod : exec (modDin k f) s = .done () S := by
    rw [← hS]
    rfl
  have hinum : (S.mem.icache k).inum = i := by
    rw [← hS, setInode_same]
    exact hat.inum
  have hsbS : S.mem.sb = sb := by
    rw [← hS]
    exact hsb
  have hlogS : Begun V S := by
    rw [← hS]
    exact hlog.same rfl rfl rfl
  have hlhS : S.lh = s.lh := by
    rw [← hS]
    rfl
  have hlt : (S.mem.icache k).inum < sb.ninodes := by
    rw [hinum]
    exact (node_some hat.node).2.2
  obtain ⟨s2, hup⟩ := iupdate_last hd.layout hsbS hlt hlogS
  have hstate := does_exec (iupdate_does (W := Set.univ) (N := True) hsbS trivial) hup
  have hchange := setFields_changes f hd hsb hat htype haddrs hsize
    (exec_bind_done.mpr ⟨_, S, hmod, exec_bind_done.mpr ⟨_, s2, hup, rfl⟩⟩)
  have hlh : s2.lh = absorb s.lh (IBLOCK i sb) := by
    rw [hstate, hinum, ← hlhS]
    rfl
  obtain ⟨a, s', hrun, hq⟩ := hc s2 hchange hlh
  exact ⟨a, s', exec_bind_done.mpr ⟨_, S, hmod, exec_bind_done.mpr ⟨_, s2, hup, hrun⟩⟩, hq⟩

/-- A log with few blocks has room. -/
theorem begun_short (hnodup : s.lh.Nodup) (hlen : s.lh.length ≤ 20) (ho : 1 ≤ s.outstanding)
    (hsize : s.logSize = LOGSIZE) : Begun s.lh.toFinset s := by
  have hcard := toFinset_card_of_nodup hnodup
  have hlog : LOGSIZE = 30 := rfl
  exact ⟨ho, hnodup, fun b hb => mem_toFinset.mpr hb, by omega, by omega⟩

theorem begun_fresh (h : Fresh s) : Begun s.lh.toFinset s :=
  begun_short (by rw [h.lh]; exact nodup_nil) (by rw [h.lh]; exact Nat.zero_le _) (by rw [h.outstanding]) h.logSize

/-- **A new inode**, in a slot that was not in use, and locked. -/
theorem alloc_runs {type : Int16} (hN : ¬ N) (h : World sb N H s) (hf : Fresh s) (hspare : ∃ l, H l = 0)
    (hinode : ∃ m, 1 ≤ m ∧ m < sb.ninodes ∧ (dino sb s.view m).type = 0) (htype : type ≠ 0) {c : Fin NINODE → K β}
    (hc : ∀ k n b s1 s2, H k = 0 → Allocated sb N H s type n k s1 →
      s2 = setInode s1 k (locked sb s1.view (s1.mem.icache k)) → Cache sb N (bump H k) s2 → s2.lh = [b] →
      freeBlocks sb s2.view = freeBlocks sb s.view → Runs (c k) s2 Q) :
    Runs (ialloc ROOTDEV type >>= fun k => ilock k >>= fun _ => c k) s Q := by
  refine runs_seq (runs_does (ialloc_runs h.super h.disk h.cache hinode (begun_fresh hf) hspare)
    (ialloc_does (W := Set.univ) h.super h.disk h.cache htype fun _ _ => trivial)) ?_
  rintro k s1 ⟨⟨hbusy1, hblocks, b, hlh1⟩, n, ha⟩
  have hk0 : H k = 0 := by
    by_contra hpos
    have hpos' : 0 < H k := Nat.pos_of_ne_zero hpos
    have hlive := h.cache.live hN k hpos'
    rw [← ha.keep.inum hpos', ha.inum] at hlive
    exact hlive ha.first.free
  refine runs_seq (ilock_locks hN ha.disk.layout (ha.outer.sb.trans h.super) ha.cache bump_pos (hbusy1 hk0)) ?_
  rintro _ s2 ⟨hs2, hcache2⟩
  refine hc k n b s1 s2 hk0 ha hs2 hcache2 ?_ ?_
  · rw [hs2, setInode_lh, hlh1, hf.lh]
    rfl
  · rw [hs2, setInode_view, hblocks]

theorem runs_beginOp {f : Unit → K β} (hlh : s.lh = []) (hidle : s.outstanding = 0) (h : Runs (f ()) (entered s) Q) :
    Runs (beginOp >>= f) s Q := by
  obtain ⟨a, s', hr, hq⟩ := h
  exact ⟨a, s', exec_bind_done.mpr ⟨_, _, exec_beginOp (by rw [hlh, hidle]; decide), hr⟩, hq⟩

theorem runs_endOp {b : β} (h : Q b (left s)) : Runs (endOp >>= fun _ => pure b) s Q :=
  ⟨b, left s, exec_bind_done.mpr ⟨_, _, exec_endOp s, rfl⟩, h⟩

/-- The directory that a path ends in, locked. -/
theorem nameiparent_locked (h : World sb False H s) (hspare : TwoSpare H) (hfree : Unlocked H s)
    (hwhole : WholeEntries sb s.view) (hcwd : ∃ k, (s.mem.ptable p).cwd = some k ∧ 0 < H k)
    (hres : resolve sb s p path true = some (d, name)) (hx : nodes sb s.view d = some x)
    {f : Fin NINODE × List UInt8 → Unit → K β} {g : K β}
    (hf : ∀ dp s', World sb False (bump H dp) s' → Still H s s' → At sb s' dp d x → (s'.mem.icache dp).busy = true →
      Runs (f (dp, name) ()) s' Q) : Runs (nameiparent p path >>= fun o => match o with
      | none => g
      | some y => ilock y.1 >>= f y) s Q := by
  have hwalk : Runs (namex p path true) s _ := namex_runs not_false h hspare hfree hwhole hcwd
  refine runs_seq hwalk ?_
  rintro (_ | y) s1 ⟨hw, hun⟩
  · cases hw.2.2.symm.trans hres
  · obtain ⟨hw1, hs1, hy⟩ := hw
    rw [hres] at hy
    obtain ⟨hd, hname⟩ := Prod.mk.inj (some.inj hy)
    have hyeq : y = (y.1, name) := Prod.ext rfl hname.symm
    refine runs_seq (ilock_runs not_false hw1 bump_pos (hun y rfl y.1 bump_pos)) ?_
    rintro _ s2 ⟨hs2, hw2, hst2, x', hat⟩
    have hst : Still H s s2 := hs1.trans (hst2.mono fun _ => bump_pos_of_pos)
    rw [← hd] at hat
    have hx' : x' = x := by
      have hnode := hat.node
      rw [hst.view, hx] at hnode
      exact (some.inj hnode).symm
    rw [hx'] at hat
    rw [hyeq]
    refine hf y.1 s2 hw2 hst hat ?_
    rw [hs2, setInode_same]
    rfl

end Total

open Xv6Mkfs (sb mkfs files)

/-! ## A process without descriptors -/

/-- The root directory, open for reading in sixteen descriptors. -/
def rootFile : File := ⟨.inode, 16, true, false, none, some rootSlot, 0⟩

theorem nfile_pos : 0 < NFILE := Nat.zero_lt_succ _

def firstFile : Fin NFILE := ⟨0, nfile_pos⟩

/-- After boot, when the first process has opened the root directory and duplicated the descriptor until it had no
    more. -/
def crowded (img : Nat → Block) : LState :=
  let s := setInode (booted img) rootSlot
    { (booted img).mem.icache rootSlot with ref := ((booted img).mem.icache rootSlot).ref + 1 }
  { s with mem := { s.mem with
      ftable := update s.mem.ftable firstFile rootFile
      ptable := update s.mem.ptable initproc
        { s.mem.ptable initproc with ofile := fun _ => some firstFile } } }

section Crowded

variable {img : Nat → Block} {x : Node} {name : List UInt8}

theorem crowded_world (h : World sb False rootHeld (booted img)) :
    World sb False (bump rootHeld rootSlot) (crowded img) := by
  have hused : 0 < rootHeld rootSlot := zero_lt_one
  exact (h.got (got_ref h.cache hused)).1.same rfl rfl rfl

theorem EmptyRoot.lookup_none (h : EmptyRoot x) (h0 : 0 ∉ name) (h1 : [46] ≠ name.take DIRSIZ)
    (h2 : [46, 46] ≠ name.take DIRSIZ) : x.lookup name = none := by
  refine (lookup_none_iff h0).mpr ?_
  rintro k ⟨hk, hname⟩
  rcases (h.live k).mp hk with rfl | rfl
  · rw [h.dot] at hname
    exact h1 hname
  · rw [h.dotdot] at hname
    exact h2 hname

theorem EmptyRoot.lookup_a (h : EmptyRoot x) : x.lookup [97] = none := h.lookup_none (by decide) (by decide) (by decide)

/-- A path of one element leads to the current directory. -/
theorem resolve_single {s : LState} {c : UInt8} (hc : c ≠ slash) (hnode : nodes sb s.view ROOTINO = some x)
    (hdir : x.type = T_DIR) (hstart : startOf s.mem initproc [c] = ROOTINO) :
    resolve sb s initproc [c] true = some (ROOTINO, [c]) := by
  have hskip : skipelem [c] = some ([c], []) := by
    simp [skipelem, hc, DIRSIZ]
  rw [resolve, hstart, walkFrom, hskip]
  rw [hnode]
  show (if x.type ≠ T_DIR then none else _) = _
  rw [if_neg (not_not.mpr hdir)]
  exact if_pos ⟨rfl, rfl⟩

end Crowded

/-! ## The theorem -/

/-- **A call that returns an error leaves the file system as it was** if and only if it is not an `open` that creates a
    file and has no descriptor for it. -/
theorem failed_call_iff (sb : Superblock) (H : Fin NINODE → Nat) (s s' : LState) (p : Fin NPROC) (c : NameCall) (r : Int)
    (h : World sb True H s) (hcwd : ∀ k, (s.mem.ptable p).cwd = some k → 0 < H k)
    (hfile : ∀ f, (s.mem.ftable f).ref = 0 → (s.mem.ftable f).type = .none)
    (hrun : exec (c.run p) s = .done r s') (hr : r < 0) :
    nodes sb s'.view = nodes sb s.view ↔ ¬ LeavesFile sb s p c := by
  cases c with
  | «open» path omode => exact sysOpen_fails h hcwd hfile r s' hrun hr
  | link old new => exact ⟨fun _ hl => hl, fun _ => sysLink_fails h hcwd r s' hrun hr⟩
  | unlink path => exact ⟨fun _ hl => hl, fun _ => by rw [sysUnlink_fails h hcwd r s' hrun hr]⟩
  | mkdir path | mknod path major minor =>
    exact ⟨fun _ hl => hl, fun _ => by rw [sysCreate_fails h hcwd r s' hrun hr]⟩

/-- `unlink` of "." after boot returns an error and leaves every node as it was. -/
theorem failed_call_unlink_dot : ∃ img s', exec (NameCall.run initproc (.unlink (some [46]))) (booted img) = .done EPERM s' ∧
    nodes sb s'.view = nodes sb img := by
  obtain ⟨img, x, hmk, hw, -⟩ := booted_empty
  have heval : (mkfs (files 0)).map (fun img =>
      (exec (NameCall.run initproc (.unlink (some [46]))) (booted img)).done?.map Prod.fst) = some (some EPERM) := by
    decide +kernel
  rw [hmk, map_some, some.injEq] at heval
  obtain ⟨⟨r, s'⟩, hrun, rfl⟩ := map_eq_some_iff.mp heval
  have hexec := Out.done?_eq_some.mp hrun
  refine ⟨img, s', hexec, ?_⟩
  refine (failed_call_iff sb rootHeld (booted img) s' initproc (.unlink (some [46])) EPERM hw.loosen ?_ ?_ hexec
    (by decide)).mpr fun hl => hl
  · intro k hk
    obtain rfl : rootSlot = k := some.inj hk
    exact zero_lt_one
  · exact fun _ _ => rfl

/-- **`open` fails and the file is there**: with `O_CREATE` and the new name "a", by a process whose descriptors are all in
    use. -/
theorem open_error_leaves_file : ∃ img s', World sb True (bump rootHeld rootSlot) (crowded img) ∧
    exec (NameCall.run initproc (.open (some [97]) O_CREATE)) (crowded img) = .done EACCES s' ∧
    nodes sb s'.view ≠ nodes sb (crowded img).view := by
  obtain ⟨img, x, hmk, hw, -, -, -, -, hothers⟩ := booted_empty
  have heval : (mkfs (files 0)).map (fun img =>
      (exec (NameCall.run initproc (.open (some [97]) O_CREATE)) (crowded img)).done?.map fun x =>
        (x.1, (dino sb x.2.view 2).type)) = some (some (EACCES, T_FILE)) := by
    decide +kernel
  rw [hmk, map_some, some.injEq] at heval
  obtain ⟨⟨r, s'⟩, hrun, heq⟩ := map_eq_some_iff.mp heval
  obtain ⟨rfl, hmade⟩ := Prod.mk.inj heq
  have htype : (dino sb s'.view 2).type ≠ 0 := by
    rw [hmade]
    decide
  refine ⟨img, s', (crowded_world hw).loosen, Out.done?_eq_some.mp hrun, fun hsame => ?_⟩
  -- inode 2 was free, and is a file now
  have hfree : nodes sb img 2 = none := if_pos (hothers 2 (by decide))
  have hthere : nodes sb s'.view 2 ≠ none := by
    rw [nodes, nodesOf, if_neg htype]
    exact Option.some_ne_none _
  rw [hsame] at hthere
  exact hthere hfree

end Xv6World
