import Xv6.FileTableProofs

/-!
# Descriptors, entries and pipes over whole runs

Every call keeps the file table in order (`syscall_files`), whatever its arguments are and whichever
of its allocations fail, and never touches a page after `kfree`. From this, for every run of
calls from a state without open files: the count of an entry is the number of its descriptors, what
an entry holds has been given back once for each time it was filled in, except for the entries that
descriptors point to now, and a page is a pipe exactly as long as a descriptor is one of its ends.

Nothing is assumed about the disk.
-/

namespace Xv6Files

open CmdProg ByteBuf Xv6Disk Xv6Kernel Xv6Fs Xv6Sys RefCount Function Option Set

/-- No page is used after `kfree`. -/
def Fine : Cmd → LState → Prop
  | .stop e, _ => e ≠ .freed
  | _, _ => True

variable {omode : UInt32} {x y : File}

theorem free_fine : Free Fine :=
  ⟨fun _ => trivial, fun _ _ => trivial, fun _ => trivial, fun _ _ _ => trivial, fun _ _ h _ => h⟩

theorem fine_inner {I : Prop} {c : Cmd} {s : LState} (h : Inner I c s) : Fine c s := by
  cases c with
  | stop e => exact h
  | _ => trivial

/-! ## Code that leaves the tables alone -/

/-- Code that changes none of the tables that `Files` looks at. -/
def Tame {α : Type} (p : K α) : Prop := ∀ s, Meets lstep Fine (fun _ s' => Alike s s') p s

section Tame

variable {α β : Type} {p q : K α} {f : α → K β} {s s' s'' : LState}

theorem Alike.refl : Alike s s := ⟨rfl, rfl, rfl, fun _ _ => rfl⟩

theorem Alike.trans (h1 : Alike s s') (h2 : Alike s' s'') : Alike s s'' :=
  ⟨h2.ftable.trans h1.ftable, h2.ptable.trans h1.ptable, h2.pipes.trans h1.pipes,
    fun e he => (h2.passed e he).trans (h1.passed e he)⟩

theorem tame_pure {a : α} : Tame (pure a : K α) := fun _ => Alike.refl

theorem tame_bind (hp : Tame p) (hf : ∀ a, Tame (f a)) : Tame (p >>= f) := by
  intro s
  refine meets_seq (hp s) fun a s' h => ?_
  exact meets_mono (hf a s') (fun _ _ h => h) fun _ _ => h.trans

theorem tame_ite {c : Prop} [Decidable c] (hp : Tame p) (hq : Tame q) : Tame (if c then p else q) := by
  split_ifs with h
  · exact hp
  · exact hq

theorem tame_calm (h : Calm True p) : Tame p :=
  fun s => meets_mono (h.meets s) (fun _ _ => fine_inner) fun _ _ => alike_of_same

theorem tame_then {f : α → K β} (h : Calm True p) (hf : ∀ a, Tame (f a)) : Tame (p >>= f) := tame_bind (tame_calm h) hf

theorem tame_beginOp : Tame beginOp := by
  refine fun s => meets_runs trivial (fun _ _ => exec_beginOp_done) ?_
  rintro _ _ rfl
  exact ⟨rfl, rfl, rfl, fun _ _ => rfl⟩

theorem tame_endOp : Tame endOp := by
  refine fun s => meets_runs trivial (fun _ _ => exec_endOp_done) ?_
  rintro _ _ rfl
  unfold left
  split_ifs
  · exact ⟨rfl, rfl, rfl, fun _ _ => rfl⟩
  · exact ⟨rfl, rfl, rfl, fun _ _ => rfl⟩

theorem tame_meets {Q : β → LState → Prop} (hp : Tame p)
    (h : ∀ a s', Alike s s' → Meets lstep Fine Q (f a) s') : Meets lstep Fine Q (p >>= f) s :=
  meets_seq (hp s) h

end Tame

section TameCalls

variable {p : Fin NPROC} {ip dp : Fin NINODE} {path : List UInt8}

theorem tame_done {α : Type} {a : α} : Tame (endOp >>= fun _ => (pure a : K α)) :=
  tame_bind tame_endOp fun _ => tame_pure

theorem tame_sysLinkBad : Tame (sysLinkBad ip) :=
  tame_then calm_ilock fun _ => tame_then calm_modDin fun _ =>
    tame_then calm_iupdate fun _ => tame_then calm_iunlockput fun _ => tame_done

theorem tame_sysLinkInto {new : List UInt8} : Tame (sysLinkInto p ip new) := by
  refine tame_then calm_nameiparent fun r => ?_
  cases r with
  | none => exact tame_sysLinkBad
  | some x =>
    have hbad : Tame (iunlockput x.1 >>= fun _ => sysLinkBad ip) :=
      tame_then calm_iunlockput fun _ => tame_sysLinkBad
    refine tame_then calm_ilock fun _ => tame_then calm_getInode fun _ =>
      tame_then calm_getInode fun _ => tame_ite hbad <|
        tame_then calm_dirlink fun _ => tame_ite hbad ?_
    exact tame_then calm_iunlockput fun _ => tame_then calm_iput fun _ =>
      tame_done

theorem tame_sysLink {old new : Option (List UInt8)} : Tame (sysLink p old new) := by
  cases old with
  | none => exact tame_pure
  | some old =>
    cases new with
    | none => exact tame_pure
    | some new =>
      refine tame_bind tame_beginOp fun _ => tame_then calm_namei fun r => ?_
      cases r with
      | none => exact tame_done
      | some ip =>
        refine tame_then calm_ilock fun _ =>
          tame_then calm_getInode fun _ => tame_ite
            (tame_then calm_iunlockput fun _ => tame_done) ?_
        exact tame_then calm_modDin fun _ => tame_then calm_iupdate fun _ =>
          tame_then calm_iunlock fun _ => tame_sysLinkInto

theorem tame_sysUnlinkBad : Tame (sysUnlinkBad dp) :=
  tame_then calm_iunlockput fun _ => tame_done

theorem tame_sysUnlinkEntry {off : Nat} : Tame (sysUnlinkEntry dp ip off) := by
  refine tame_then calm_writei fun _ => tame_ite (tame_calm calm_kpanic) <|
    tame_then calm_getInode fun _ => tame_then (calm_ite
      (calm_bind calm_modDin fun _ => calm_iupdate) calm_pure) fun _ => ?_
  exact tame_then calm_iunlockput fun _ => tame_then calm_modDin fun _ =>
    tame_then calm_iupdate fun _ => tame_then calm_iunlockput fun _ => tame_done

theorem tame_sysUnlink {path : Option (List UInt8)} : Tame (sysUnlink p path) := by
  cases path with
  | none => exact tame_pure
  | some path =>
    refine tame_bind tame_beginOp fun _ => tame_then calm_nameiparent fun r => ?_
    cases r with
    | none => exact tame_done
    | some x =>
      refine tame_then calm_ilock fun _ => tame_ite tame_sysUnlinkBad <|
        tame_then calm_dirlookup fun r => ?_
      cases r with
      | none => exact tame_sysUnlinkBad
      | some y =>
        exact tame_then calm_ilock fun _ => tame_then calm_getInode fun _ =>
          tame_ite (tame_calm calm_kpanic) <| tame_then calm_unlinkable fun _ =>
            tame_ite tame_sysUnlinkEntry <| tame_then calm_iunlockput fun _ =>
              tame_sysUnlinkBad

theorem tame_sysCreate {path : Option (List UInt8)} {type major minor : Int16} {err : Int} :
    Tame (sysCreate p path type major minor err) := by
  refine tame_bind tame_beginOp fun _ => ?_
  cases path with
  | none => exact tame_done
  | some path =>
    refine tame_then calm_create fun r => ?_
    cases r with
    | none => exact tame_done
    | some ip => exact tame_then calm_iunlockput fun _ => tame_done

theorem tame_sysExec {path : Except Int (List UInt8)} : Tame (sysExec p path) := by
  cases path with
  | error e => exact tame_pure
  | ok path =>
    refine tame_bind tame_beginOp fun _ => tame_then calm_namei fun r => ?_
    cases r with
    | none => exact tame_done
    | some ip =>
      refine tame_then calm_ilock fun _ => tame_then calm_execImage fun r =>
        tame_then calm_iunlockput fun _ => tame_bind tame_endOp fun _ => ?_
      cases r with
      | none => exact tame_pure
      | some _ => exact tame_then calm_input fun _ => tame_pure

theorem tame_sysOpenInode : Tame (sysOpenInode p path omode) := by
  refine tame_ite (tame_then calm_create fun r => ?_)
    (tame_then calm_namei fun r => ?_)
  · cases r with
    | none => exact tame_done
    | some ip => exact tame_pure
  · cases r with
    | none => exact tame_done
    | some ip =>
      exact tame_then calm_ilock fun _ => tame_then calm_getInode fun _ =>
        tame_ite (tame_then calm_iunlockput fun _ => tame_done) tame_pure

end TameCalls

/-! ## `file.c` and `pipe.c` -/

/-- The file table is in order, and the processes are as they were. -/
def Kept (E : Fin NFILE → Int) (U : Set (Fin NFILE)) (s s' : LState) : Prop :=
  Files E U s' ∧ s'.mem.ptable = s.mem.ptable

/-- The pipe with one end shut. -/
def shut (z : Pipe) (writable : Bool) : Pipe :=
  if writable then { z with writeopen := false } else { z with readopen := false }

section FileCode

variable {E : Fin NFILE → Int} {U : Set (Fin NFILE)} {s s' : LState} {f : Fin NFILE} {page : Nat}
  {z : Pipe} {w : Bool}
  {β : Type} {Q : β → LState → Prop} {src : Nat → UInt8}

theorem openEnd_shut : openEnd (shut z w) w = false := by
  cases w <;> rfl

theorem openEnd_shut_not : openEnd (shut z w) (!w) = openEnd z (!w) := by
  cases w <;> rfl

theorem shut_closed : (shut z w).readopen = false ∧ (shut z w).writeopen = false ↔ openEnd z (!w) = false := by
  cases w <;> simp [shut, openEnd]

theorem Kept.refl (h : Files E U s) : Kept E U s s := ⟨h, rfl⟩

theorem Kept.after {E' : Fin NFILE → Int} {U' : Set (Fin NFILE)} {s'' : LState}
    (h1 : s'.mem.ptable = s.mem.ptable) (h2 : Kept E' U' s' s'') : Kept E' U' s s'' :=
  ⟨h2.1, h2.2.trans h1⟩

theorem getPipe_fine {k : Pipe → K β} (hz : s.mem.pipes page = some z) (h : Meets lstep Fine Q (k z) s) :
    Meets lstep Fine Q (getPipe page >>= k) s := by
  refine meets_bind (free_getMem free_fine ?_)
  rw [hz]
  exact h

theorem modPipe_fine {g : Pipe → Pipe} {k : Unit → K β}
    (hz : s.mem.pipes page = some z) (h : Meets lstep Fine Q (k ()) (setPage s page (some (g z)))) :
    Meets lstep Fine Q (modPipe page g >>= k) s := by
  refine free_modMem free_fine ?_
  rw [hz]
  exact h

/-- **`pipeclose`** shuts one end, and frees the page with the second. -/
theorem pipeclose_fine (hz : s.mem.pipes page = some z) : Meets lstep Fine (fun _ s' =>
      (openEnd z (!w) = true ∧ s' = setPage s page (some (shut z w))) ∨
      (openEnd z (!w) = false ∧ s' = setPage (pass s (.kfree page)) page none)) (pipeclose page w) s := by
  have hz' : (setPage s page (some (shut z w))).mem.pipes page = some (shut z w) :=
    update_self _ _ _
  refine getPipe_fine hz (modPipe_fine hz (getPipe_fine hz' ?_))
  split
  · next hc =>
    refine getPipe_fine hz' (free_point free_fine nofun ?_)
    refine meets_last (free_modMem free_fine (.inr ⟨shut_closed.mp hc, ?_⟩))
    simp only [setTables, setPage, Xv6Fs.pass, update_idem]
  · next hc =>
    refine .inl ⟨?_, rfl⟩
    rw [shut_closed] at hc
    exact Bool.eq_true_of_not_eq_false hc

theorem pass_passed (e e' : Point) : (pass s e).passed e' = s.passed e' + if e' = e then 1 else 0 := by
  show update s.passed e (s.passed e + 1) e' = _
  rw [update_apply]
  split_ifs with he
  · rw [he]
  · rw [add_zero]

/-- The entry whose last reference has gone gives back what it holds. -/
theorem fileRelease_fine (h : Files E U s) (href : (s.mem.ftable f).ref = 1)
    (hy : y = { s.mem.ftable f with ref := 0, type := .none }) :
    Meets lstep Fine (fun _ s' => Kept (E + Pi.single f (-1)) (U \ {f}) s s')
      (fileRelease f (s.mem.ftable f)) (setFile s f y) := by
  have hUne : ∀ g, g ≠ f → (g ∈ U \ {f} ↔ g ∈ U) := fun g hg => by simp [hg]
  have hyref : y.ref = (s.mem.ftable f).ref + -1 := by rw [hy, href]; rfl
  have hynone : y.type = .none := by rw [hy]
  have hkind : y.type = .none ↔ y.ref = 0 ∨ f ∈ U \ {f} := by rw [hy]; simp
  -- the counts follow once what the entries hold has been dealt with
  have hfiles : ∀ {t : LState}, Ends t → t.mem.ftable = update s.mem.ftable f y →
      t.mem.ptable = s.mem.ptable → Kept (E + Pi.single f (-1)) (U \ {f}) s t := by
    intro t he hf hp
    exact ⟨h.change he hf hyref (by unfold table; rw [hp]) hkind hUne, hp⟩
  cases htype : (s.mem.ftable f).type with
  | none =>
    rw [fileRelease, htype]
    refine ⟨h.setRef ?_ hyref hkind hUne, rfl⟩
    rw [hy, face, face, htype]
  | inode =>
    rw [fileRelease, htype]
    refine free_point free_fine (by rintro ⟨⟩) ?_
    obtain ⟨ip, hip⟩ := ne_none_iff_exists'.mp (h.ends.inode f htype)
    refine free_fileInode hip ?_
    have hends : Ends (pass (setFile s f y) (.released f)) :=
      h.ends.release htype rfl hynone rfl fun e _ => pass_passed _ e
    have hput : Tame (beginOp >>= fun _ => iput ip >>= fun _ => endOp) :=
      tame_bind tame_beginOp fun _ => tame_then calm_iput fun _ => tame_endOp
    refine meets_mono (hput _) (fun _ _ h => h) fun _ t ht => ?_
    exact hfiles (hends.keep (fun _ => by rw [ht.ftable]) ht.pipes ht.passed) ht.ftable ht.ptable
  | pipe =>
    rw [fileRelease, htype]
    refine free_point free_fine (by rintro ⟨⟩) ?_
    obtain ⟨page, z, hpage, hz, _⟩ := h.ends.pipe f htype
    have hend : EndOf (s.mem.ftable f) page (s.mem.ftable f).writable := ⟨htype, hpage, rfl⟩
    refine free_filePipe hpage ?_
    refine meets_mono (pipeclose_fine (s := pass (setFile s f y) (.released f)) hz) (fun _ _ h => h) ?_
    rintro _ t (⟨hopen, rfl⟩ | ⟨hclosed, rfl⟩)
    · refine hfiles (h.ends.closeEnd hend hz rfl hynone rfl ?_ ?_ fun e _ => ?_) rfl rfl
      · rintro _ ⟨⟩
        exact ⟨openEnd_shut, openEnd_shut_not.trans hopen⟩
      · exact iff_of_false (by rintro ⟨⟩) fun hc => by cases hc.symm.trans hopen
      · simp only [reduceCtorEq, and_false, or_false]
        exact pass_passed (s := s) _ e
    · refine hfiles (h.ends.closeEnd hend hz rfl hynone rfl (by rintro _ ⟨⟩) (iff_of_true rfl hclosed) fun e _ => ?_) rfl rfl
      show (pass (pass s (.released f)) (.kfree page)).passed e = _
      rw [pass_passed, pass_passed]
      by_cases h1 : e = .released f
      · subst h1
        simp
      · by_cases h2 : e = .kfree page <;> simp [h1, h2]

/-- **`fileclose`** takes one reference away, and with the last what the entry holds. -/
theorem fileclose_fine (h : Files E U s) (hU : f ∈ U → (s.mem.ftable f).ref = 1) :
    Meets lstep Fine (fun _ s' => Kept (E - Pi.single f 1) (U \ {f}) s s') (fileclose f) s := by
  have hE : E - Pi.single f 1 = E + Pi.single f (-1) := by
    rw [sub_eq_add_neg, ← Pi.single_neg]
  rw [hE, fileclose]
  refine free_getFile free_fine ?_
  split_ifs with _ h2
  · exact free_kpanic free_fine (by decide)
  · refine meets_last (free_modFile free_fine ?_)
    refine ⟨h.setRef (y := { s.mem.ftable f with ref := (s.mem.ftable f).ref - 1 }) rfl rfl ?_
      fun g hg => by simp [hg], rfl⟩
    show (s.mem.ftable f).type = .none ↔ (s.mem.ftable f).ref - 1 = 0 ∨ f ∈ U \ {f}
    rw [h.kind f]
    constructor
    · rintro (h0 | hf)
      · omega
      · have := hU hf
        omega
    · rintro (h0 | hf)
      · omega
      · exact absurd rfl hf.2
  · exact free_modFile free_fine (fileRelease_fine h (by omega) rfl)

/-- The offset of an entry changes. -/
theorem Files.setOff (h : Files E U s) (hy : face y = face (s.mem.ftable f))
    (href : y.ref = (s.mem.ftable f).ref) : Files E U (setFile s f y) := by
  have htype : y.type = (s.mem.ftable f).type := congrArg Prod.fst hy
  have := h.setRef (d := 0) (V := U) hy (by rw [href, Int.add_zero])
    (by rw [htype, href]; exact h.kind f) fun _ _ => Iff.rfl
  rwa [Pi.single_zero, add_zero] at this

/-- Bytes go into a pipe or out of it. -/
theorem Files.setData {z' : Pipe} (h : Files E U s) (hz : s.mem.pipes page = some z)
    (hz' : ∀ w, openEnd z' w = openEnd z w) : Files E U (setPage s page (some z')) :=
  ⟨h.count, h.kind, h.ends.data hz rfl rfl hz' rfl⟩

theorem pipereadLoop_fine (r : Nat) (s : LState) (z : Pipe) (h : Files E U s) (hz : s.mem.pipes page = some z) :
    Meets lstep Fine (fun _ s' => Kept E U s s') (pipereadLoop page r) s := by
  induction r generalizing s z with
  | zero => exact Kept.refl h
  | succ r ih =>
    refine getPipe_fine hz ?_
    split_ifs with hempty
    · exact Kept.refl h
    · refine modPipe_fine hz (meets_seq (ih _ _ (h.setData hz fun w => ?_)
        (update_self _ _ _)) fun _ s' hs => hs)
      cases w <;> rfl

theorem piperead_fine {n : Int32} (h : Files E U s) (hz : s.mem.pipes page = some z) :
    Meets lstep Fine (fun _ s' => Kept E U s s') (piperead page n) s := by
  refine getPipe_fine hz ?_
  split_ifs with hempty
  · refine free_input free_fine fun v => ?_
    split_ifs with hv
    · exact ⟨h.alike ⟨rfl, rfl, rfl, fun _ _ => rfl⟩, rfl⟩
    · exact free_halt free_fine nofun nofun
  · exact meets_seq (pipereadLoop_fine _ s z h hz) fun _ s' hs => hs

theorem pipewriteLoop_fine (r i : Nat) (s : LState) (z : Pipe) (h : Files E U s) (hz : s.mem.pipes page = some z) :
    Meets lstep Fine (fun _ s' => Kept E U s s') (pipewriteLoop page src r i) s := by
  induction r generalizing i s z with
  | zero => exact Kept.refl h
  | succ r ih =>
    refine getPipe_fine hz ?_
    split_ifs with hfull
    · refine free_input free_fine fun v => ?_
      split_ifs with hv
      · exact ⟨h.alike ⟨rfl, rfl, rfl, fun _ _ => rfl⟩, rfl⟩
      · exact free_halt free_fine nofun nofun
    · refine modPipe_fine hz (ih _ _ _ (h.setData hz fun w => ?_) (update_self _ _ _))
      cases w <;> rfl

theorem fileread_fine {n : Int32} (h : Files E U s) :
    Meets lstep Fine (fun _ s' => Kept E U s s') (fileread f n) s := by
  refine free_getFile free_fine ?_
  split_ifs with hr
  · exact Kept.refl h
  · cases htype : (s.mem.ftable f).type with
    | none => exact free_kpanic free_fine (by decide)
    | pipe =>
      obtain ⟨page, z, hpage, hz, _⟩ := h.ends.pipe f htype
      exact free_filePipe hpage (piperead_fine h hz)
    | inode =>
      obtain ⟨ip, hip⟩ := ne_none_iff_exists'.mp (h.ends.inode f htype)
      refine free_fileInode hip <| tame_meets (tame_calm calm_ilock) fun _ s1 h1 =>
        tame_meets (tame_calm calm_readi) fun x s2 h2 => free_modFile free_fine ?_
      have hs2 : Alike s s2 := h1.trans h2
      refine tame_meets (tame_calm calm_iunlock) fun _ s3 h3 => ?_
      refine ⟨Files.alike ((h.alike hs2).setOff ?_ ?_) h3, h3.ptable.trans hs2.ptable⟩
      · split_ifs with hx
        · rfl
        · rfl
      · split_ifs with hx
        · rfl
        · rfl

theorem filewriteChunk_fine {ip : Fin NINODE} {n : Nat} (h : Files E U s) :
    Meets lstep Fine (fun _ s' => Kept E U s s') (filewriteChunk f ip src n) s := by
  refine tame_meets tame_beginOp fun _ s1 h1 => tame_meets (tame_calm calm_ilock) fun _ s2 h2 =>
    free_getFile free_fine <| tame_meets (tame_calm calm_writei) fun r s3 h3 =>
      free_modFile free_fine ?_
  have hs3 : Alike s s3 := (h1.trans h2).trans h3
  refine tame_meets (tame_calm calm_iunlock) fun _ s4 h4 => tame_meets tame_endOp fun _ s5 h5 => ?_
  have hs5 := h4.trans h5
  refine ⟨Files.alike ((h.alike hs3).setOff ?_ ?_) hs5, hs5.ptable.trans hs3.ptable⟩
  · split_ifs with hr
    · rfl
    · rfl
  · split_ifs with hr
    · rfl
    · rfl

theorem filewriteLoop_fine {ip : Fin NINODE} {n : Nat} (r i : Nat) (s : LState) (h : Files E U s) :
    Meets lstep Fine (fun _ s' => Kept E U s s') (filewriteLoop f ip src n r i) s := by
  induction r generalizing i s with
  | zero => exact Kept.refl h
  | succ r ih =>
    rw [filewriteLoop]
    split_ifs with hi
    · refine meets_seq (filewriteChunk_fine h) ?_
      rintro x s1 ⟨hf1, hp1⟩
      split_ifs with _ hn
      · exact ⟨hf1, hp1⟩
      · exact free_kpanic free_fine (by decide)
      · exact meets_mono (ih _ s1 hf1) (fun _ _ h => h) fun _ _ => Kept.after hp1
    · exact Kept.refl h

theorem filewrite_fine {n : Int32} (h : Files E U s) :
    Meets lstep Fine (fun _ s' => Kept E U s s') (filewrite f src n) s := by
  refine free_getFile free_fine ?_
  split_ifs with hr
  · exact Kept.refl h
  · cases htype : (s.mem.ftable f).type with
    | none => exact free_kpanic free_fine (by decide)
    | pipe =>
      obtain ⟨page, z, hpage, hz, _⟩ := h.ends.pipe f htype
      exact free_filePipe hpage (meets_seq (pipewriteLoop_fine _ _ s z h hz) fun _ _ hs => hs)
    | inode =>
      obtain ⟨ip, hip⟩ := ne_none_iff_exists'.mp (h.ends.inode f htype)
      exact free_fileInode hip (meets_seq (filewriteLoop_fine _ _ s h) fun _ _ hs => hs)

/-- A free entry is allocated. -/
theorem Files.alloc (h : Files E U s) (h0 : (s.mem.ftable f).ref = 0) :
    Files (E + Pi.single f 1) (insert f U) (setFile s f { s.mem.ftable f with ref := 1 }) := by
  refine h.setRef rfl (by rw [h0]; rfl) ?_ fun g hg => ?_
  · have : (s.mem.ftable f).type = .none := (h.kind f).mpr (.inl h0)
    exact ⟨fun _ => .inr (mem_insert _ _), fun _ => this⟩
  · rw [mem_insert_iff, or_iff_right hg]

/-- One more reference to an entry. -/
theorem Files.dup (h : Files E U s) (h1 : 1 ≤ (s.mem.ftable f).ref) : Files (E + Pi.single f 1) U
      (setFile s f { s.mem.ftable f with ref := (s.mem.ftable f).ref + 1 }) := by
  refine h.setRef rfl rfl ?_ fun _ _ => Iff.rfl
  show (s.mem.ftable f).type = .none ↔ (s.mem.ftable f).ref + 1 = 0 ∨ f ∈ U
  rw [h.kind f]
  constructor
  · rintro (h0 | hU)
    · omega
    · exact .inr hU
  · rintro (h0 | hU)
    · omega
    · exact .inr hU

end FileCode

/-! ## The calls -/

/-- Only running processes have descriptors. -/
def Closed (m : Mem) : Prop :=
  ∀ q, (m.ptable q).state ≠ .runnable → ∀ fd, (m.ptable q).ofile fd = none

/-- **Between calls.** -/
structure FileInv (s : LState) : Prop where
  files : Files 0 ∅ s
  closed : Closed s.mem

/-- The code is `Fine`, and the invariant holds again if it finishes. -/
abbrev KeepsFiles {α : Type} (p : K α) (s : LState) : Prop := Meets lstep Fine (fun _ s' => FileInv s') p s

section Calls

variable {s s' : LState} {f : Fin NFILE} {p q : Fin NPROC} {fd : Fin NOFILE} {n : Int32}
  {β : Type} {Q : β → LState → Prop} {U : Set (Fin NFILE)} {E : Fin NFILE → Int}

theorem FileInv.kept (h : FileInv s) (hk : Kept 0 ∅ s s') : FileInv s' :=
  ⟨hk.1, by rw [Closed, hk.2]; exact h.closed⟩

theorem FileInv.alike (h : FileInv s) (ha : Alike s s') : FileInv s' :=
  h.kept ⟨h.files.alike ha, ha.ptable⟩

theorem closed_setProc {x : Proc} (h : Closed s.mem)
    (hx : x.state ≠ .runnable → ∀ fd, x.ofile fd = none) : Closed (setProc s p x).mem := by
  intro q
  show (update s.mem.ptable p x q).state ≠ _ → _
  by_cases hq : q = p
  · subst hq
    rw [show (setProc s q x).mem.ptable q = x from update_self _ _ _, update_self]
    exact hx
  · rw [show (setProc s p x).mem.ptable q = s.mem.ptable q from update_of_ne hq _ _, update_of_ne hq]
    exact h q

/-- A change of a process that leaves its descriptors alone. -/
theorem Files.setProc {x : Proc} (h : Files E U s)
    (hx : x.ofile = (s.mem.ptable p).ofile) : Files E U (setProc s p x) := by
  refine h.keep rfl ?_ rfl fun _ _ => rfl
  funext ⟨q, c⟩
  show (update s.mem.ptable p x q).ofile c = (s.mem.ptable q).ofile c
  by_cases hq : q = p
  · rw [hq, update_self, hx]
  · rw [update_of_ne hq]

/-- What begins with `argfd`: without a file there is nothing to do. -/
theorem argfd_files {fd : Int32} {k : Option (Fin NOFILE × Fin NFILE) → K β} (hnone : KeepsFiles (k none) s)
    (hsome : ∀ x, fdOf s.mem p fd = some x → KeepsFiles (k (some x)) s) : KeepsFiles (argfd p fd >>= k) s := by
  refine free_argfd free_fine ?_
  cases hfd : fdOf s.mem p fd with
  | none => exact hnone
  | some x => exact hsome x hfd

section

variable (h : FileInv s) {fd : Int32}
include h

theorem sysDup_files (hp : (s.mem.ptable p).state = .runnable) : KeepsFiles (sysDup p fd) s := by
  refine argfd_files h fun x hfd => ?_
  refine free_fdalloc free_fine (fun fd hfree => ?_) fun _ => h
  refine free_filedup free_fine fun href => ?_
  refine ⟨?_, closed_setProc (p := p) h.closed fun hc => absurd hp hc⟩
  have hfiles := (h.files.install (f := x.2) hfree).dup href
  rwa [sub_add_cancel] at hfiles

theorem sysClose_files (hp : (s.mem.ptable p).state = .runnable) : KeepsFiles (sysClose p fd) s := by
  refine argfd_files h fun x hfd => ?_
  have hfiles := h.files.uninstall (fdOf_some hfd)
  have hclosed := closed_setProc (p := p) (x := setFd (s.mem.ptable p) x.1 none) h.closed
    fun hc => absurd hp hc
  refine free_modProc free_fine (meets_seq (fileclose_fine hfiles fun hf => hf.elim) ?_)
  rintro _ s1 ⟨hf1, hp1⟩
  refine ⟨?_, by rw [Closed, hp1]; exact hclosed⟩
  rwa [add_sub_cancel_right, empty_sdiff] at hf1

theorem sysRead_files {buf : Bool} : KeepsFiles (sysRead p fd n buf) s := by
  refine argfd_files h fun x _ => ?_
  cases buf with
  | true => exact meets_seq (fileread_fine h.files) fun _ _ => h.kept
  | false => exact h

theorem sysWrite_files {buf : Option (Nat → UInt8)} : KeepsFiles (sysWrite p fd buf n) s := by
  refine argfd_files h fun x _ => ?_
  cases buf with
  | some src => exact meets_mono (filewrite_fine h.files) (fun _ _ h => h) fun _ _ => h.kept
  | none => exact h

theorem tame_filestat : KeepsFiles (filestat f) s := by
  refine free_getFile free_fine ?_
  cases htype : (s.mem.ftable f).type with
  | none => exact h
  | pipe => exact h
  | inode =>
    obtain ⟨ip, hip⟩ := ne_none_iff_exists'.mp (h.files.ends.inode f htype)
    exact free_fileInode hip <| tame_meets (tame_calm calm_ilock) fun _ s1 h1 =>
      tame_meets (tame_calm calm_iunlock) fun _ s2 h2 => h.alike (h1.trans h2)

theorem sysFstat_files {st : Bool} : KeepsFiles (sysFstat p fd st) s := by
  refine argfd_files h fun x _ => ?_
  cases st with
  | true => exact tame_filestat h
  | false => exact h

end

theorem lseekFill_files {src : Nat → UInt8} (r : Nat) (z : Int) (s : LState) (h : Files 0 ∅ s) :
    Meets lstep Fine (fun _ s' => Kept 0 ∅ s s') (lseekFill f src r z) s := by
  induction r generalizing z s with
  | zero => exact Kept.refl h
  | succ r ih =>
    rw [lseekFill]
    split_ifs with hz
    · refine meets_seq (filewrite_fine h) ?_
      rintro _ s1 ⟨hf1, hp1⟩
      exact meets_mono (ih _ s1 hf1) (fun _ _ h => h) fun _ _ => Kept.after hp1
    · exact Kept.refl h

theorem tame_fileSize : Tame (fileSize x) := by
  rw [fileSize]
  cases x.ip with
  | some ip => exact tame_then calm_getInode fun _ => tame_pure
  | none => exact tame_calm calm_input

theorem tame_lseekTarget {offset base uninit : Int32} : Tame (lseekTarget x offset base uninit) :=
  tame_ite tame_pure <| tame_ite tame_pure <| tame_ite (tame_bind tame_fileSize fun _ => tame_pure) tame_pure

theorem lseekTo_files {newoff : Int32} {after : Nat → UInt8} (h : FileInv s) :
    KeepsFiles (lseekTo f x newoff after) s := by
  refine tame_meets tame_fileSize fun size s1 h1 => ?_
  have hi := h.alike h1
  refine meets_seq (M := fun _ s' => Kept 0 ∅ s1 s') ?_ ?_
  · split_ifs with hlt
    · exact lseekFill_files _ _ s1 hi.files
    · exact Kept.refl hi.files
  · rintro _ s2 ⟨hf2, hp2⟩
    exact free_modFile free_fine ((hi.kept ⟨hf2, hp2⟩).kept ⟨hf2.setOff rfl rfl, rfl⟩)

theorem sysLseek_files {fd offset base uninit : Int32} {after : Nat → UInt8} (h : FileInv s) :
    KeepsFiles (sysLseek p fd offset base uninit after) s := by
  refine argfd_files h fun y _ => ?_
  refine free_getFile free_fine <| tame_meets tame_lseekTarget fun newoff s1 h1 => ?_
  have hi := h.alike h1
  split_ifs with hneg
  · exact hi
  · exact lseekTo_files hi

theorem sysIoctl_files {fd : Int32} (h : FileInv s) : KeepsFiles (sysIoctl p fd) s := by
  refine argfd_files h fun y _ => ?_
  refine free_getFile free_fine ?_
  by_cases htype : (s.mem.ftable y.2).type = .inode
  · rw [if_neg (not_not.mpr htype)]
    obtain ⟨ip, hip⟩ := ne_none_iff_exists'.mp (h.files.ends.inode y.2 htype)
    refine free_fileInode hip (free_getInode free_fine ?_)
    refine meets_mono (tame_ite tame_pure (tame_then calm_input fun _ => tame_pure) s)
      (fun _ _ h => h) fun _ _ => h.alike
  · rw [if_pos htype]
    exact h

/-! ## `open`, `pipe` -/

theorem insert_diff_self (h : f ∉ U) : insert f U \ {f} = U := by
  rw [insert_sdiff_of_mem _ (mem_singleton f), sdiff_singleton_eq_self h]

theorem sysOpenFile_fine (h : FileInv s) (hp : (s.mem.ptable p).state = .runnable) :
    Meets lstep Fine (fun r s' => match r with
      | none => FileInv s'
      | some x => Files 0 {x.1} s' ∧ Closed s'.mem ∧ (s'.mem.ftable x.1).ref = 1) (sysOpenFile p) s := by
  refine free_filealloc free_fine (fun f h0 => ?_) fun _ => h
  have halloc := h.files.alloc h0
  have href : ((setFile s f { s.mem.ftable f with ref := 1 }).mem.ftable f).ref = 1 := by
    rw [show (setFile s f { s.mem.ftable f with ref := 1 }).mem.ftable f = _
      from update_self _ _ _]
  refine free_fdalloc free_fine (fun fd hfree => ?_) fun _ => ?_
  · refine ⟨?_, closed_setProc (p := p) h.closed fun hc => absurd hp hc, href⟩
    have hfiles := halloc.install (f := f) hfree
    rwa [add_sub_cancel_right, insert_empty_eq] at hfiles
  · refine meets_seq (fileclose_fine halloc fun _ => href) ?_
    rintro _ s1 ⟨hf1, hp1⟩
    refine h.kept ⟨?_, hp1⟩
    rwa [add_sub_cancel_right, insert_diff_self (notMem_empty f)] at hf1

/-- An allocated entry gets its inode. -/
theorem Files.fill (h : Files E U s) (hf : f ∈ U) (href : (s.mem.ftable f).ref = 1) (hy : y.ref = (s.mem.ftable f).ref)
    (htype : y.type = .inode) (hip : y.ip ≠ none) : Files E (U \ {f}) (setFile (pass s (.opened f)) f y) := by
  have hends : Ends (setFile (pass s (.opened f)) f y) :=
    h.ends.fill ((h.kind f).mpr (.inr hf)) rfl htype hip rfl fun e _ => pass_passed (s := s) _ e
  have hfiles := h.change (d := 0) (V := U \ {f}) hends rfl (by rw [hy, Int.add_zero]) rfl (by
    rw [htype, hy, href]
    simp) fun g hg => by simp [hg]
  rwa [Pi.single_zero, add_zero] at hfiles

theorem sysOpenFill_fine {ip : Fin NINODE} (h : Files 0 {f} s) (hc : Closed s.mem)
    (href : (s.mem.ftable f).ref = 1) : KeepsFiles (sysOpenFill f ip omode) s := by
  refine free_getInode free_fine (free_point free_fine nofun ?_)
  refine meets_last (free_modFile free_fine ⟨?_, hc⟩)
  have hfiles := fun y => h.fill (y := y) (mem_singleton f) href
  rw [sdiff_self] at hfiles
  exact hfiles _ rfl rfl (some_ne_none ip)

theorem sysOpen_files {path : Option (List UInt8)} (h : FileInv s)
    (hp : (s.mem.ptable p).state = .runnable) : KeepsFiles (sysOpen p path omode) s := by
  cases path with
  | none => exact h
  | some path =>
    refine tame_meets tame_beginOp fun _ s1 h1 => tame_meets tame_sysOpenInode fun r s2 h2 => ?_
    have hs2 := h1.trans h2
    have hi := h.alike hs2
    cases r with
    | error e => exact hi
    | ok ip =>
      refine meets_seq (sysOpenFile_fine hi (by rw [hs2.ptable]; exact hp)) fun r s3 hr => ?_
      cases r with
      | none =>
        exact tame_meets (tame_calm calm_iunlockput) fun _ s4 h4 => tame_meets tame_endOp
          fun _ s5 h5 => hr.alike (h4.trans h5)
      | some x =>
        obtain ⟨hf3, hc3, href3⟩ := hr
        refine tame_meets (tame_calm (calm_ite calm_itrunc calm_pure)) fun _ s4 h4 =>
          tame_meets (tame_calm calm_iunlock) fun _ s5 h5 => tame_meets tame_endOp fun _ s6 h6 => ?_
        have hs6 := (h4.trans h5).trans h6
        refine meets_seq (sysOpenFill_fine (hf3.alike hs6) ?_ ?_) fun _ _ hs => hs
        · rw [Closed, hs6.ptable]; exact hc3
        · rw [hs6.ftable]; exact href3

/-- With the same descriptors and the same correction, an entry has the same count. -/
theorem Files.ref_eq {E E' : Fin NFILE → Int} {U U' : Set (Fin NFILE)} (h : Files E U s)
    (h' : Files E' U' s') (ht : s'.mem.ptable = s.mem.ptable) (hE : E' f = E f) :
    (s'.mem.ftable f).ref = (s.mem.ftable f).ref := by
  rw [h'.count f, h.count f, hE, descriptors, descriptors]
  unfold table
  rw [ht]

/-- Two entries are closed that nothing else counts. -/
theorem closeTwo_fine {α : Type} {a b : Fin NFILE} {r : α} (hab : a ≠ b)
    (h : Files (Pi.single a 1 + Pi.single b 1) U s) (hU : U ⊆ {a, b})
    (ha : (s.mem.ftable a).ref = 1) (hb : (s.mem.ftable b).ref = 1) :
    Meets lstep Fine (fun x s' => x = r ∧ Kept 0 ∅ s s')
      (fileclose a >>= fun _ => fileclose b >>= fun _ => (pure r : K α)) s := by
  refine meets_seq (fileclose_fine h fun _ => ha) ?_
  rintro _ s1 ⟨hf1, hp1⟩
  have hE : (Pi.single a 1 + Pi.single b 1 - Pi.single a 1 : Fin NFILE → Int) = Pi.single b 1 :=
    add_sub_cancel_left _ _
  rw [hE] at hf1
  have hb1 : (s1.mem.ftable b).ref = 1 := by
    refine (h.ref_eq hf1 hp1 ?_).trans hb
    show (Pi.single b 1 : Fin NFILE → Int) b = (Pi.single a 1 : Fin NFILE → Int) b + _
    rw [single_ne (Ne.symm hab), zero_add]
  refine meets_seq (fileclose_fine hf1 fun _ => hb1) ?_
  rintro _ s2 ⟨hf2, hp2⟩
  refine ⟨rfl, ?_, hp2.trans hp1⟩
  have hempty : (U \ {a}) \ {b} = ∅ := by
    ext g
    have hg := @hU g
    simp only [mem_insert_iff, mem_singleton_iff] at hg
    simp only [mem_sdiff, mem_singleton_iff, mem_empty_iff_false, iff_false]
    tauto
  rwa [sub_self, hempty] at hf2

theorem kalloc_fine {k : Unit → K β} {page : Nat} (h : s.mem.pipes page = none →
      Meets lstep Fine Q (k ()) (setPage (pass s (.kalloc page)) page (some Pipe.fresh))) :
    Meets lstep Fine Q (kalloc page >>= k) s := by
  refine meets_bind (free_getMem free_fine ?_)
  cases hpage : s.mem.pipes page with
  | some z =>
    exact free_halt free_fine nofun nofun
  | none =>
    exact free_point free_fine nofun (free_modMem free_fine (h hpage))

/-- Two allocated entries become the ends of a pipe. -/
theorem Files.newPipe {a b : Fin NFILE} {page : Nat} (hab : a ≠ b)
    (h : Files E {a, b} s) (hpage : s.mem.pipes page = none) (ha : (s.mem.ftable a).ref = 1)
    (hb : (s.mem.ftable b).ref = 1) (hx : EndOf x page false) (hrx : x.ref = 1)
    (hy : EndOf y page true) (hry : y.ref = 1) (hp : s'.mem.ptable = s.mem.ptable)
    (hf : s'.mem.ftable = update (update s.mem.ftable a x) b y)
    (hpipes : s'.mem.pipes = update s.mem.pipes page (some Pipe.fresh))
    (hpass : ∀ e, e ≠ .iput → s'.passed e = s.passed e +
      if e = .opened a ∨ e = .opened b ∨ e = .kalloc page then 1 else 0) : Files E ∅ s' := by
  have hother : ∀ g, g ≠ a → g ≠ b → s'.mem.ftable g = s.mem.ftable g := by
    intro g hga hgb
    rw [hf, update_of_ne hgb, update_of_ne hga]
  have hfa : s'.mem.ftable a = x := by
    rw [hf, update_of_ne hab, update_self]
  have hfb : s'.mem.ftable b = y := by rw [hf, update_self]
  have href : ∀ g, (s'.mem.ftable g).ref = (s.mem.ftable g).ref := by
    intro g
    by_cases hga : g = a
    · rw [hga, hfa, hrx, ha]
    · by_cases hgb : g = b
      · rw [hgb, hfb, hry, hb]
      · rw [hother g hga hgb]
  refine ⟨fun g => ?_, fun g => ?_, ?_⟩
  · rw [href g, h.count g, descriptors, descriptors]
    unfold table
    rw [hp]
  · by_cases hga : g = a
    · rw [hga, hfa, hx.1, hrx]
      simp
    · by_cases hgb : g = b
      · rw [hgb, hfb, hy.1, hry]
        simp
      · rw [hother g hga hgb, h.kind g]
        simp [hga, hgb]
  · refine h.ends.newPipe hab ((h.kind a).mpr (.inr (by simp))) ((h.kind b).mpr (.inr (by simp)))
      hpage hf hx hy hpipes (fun w => ?_) hpass
    cases w <;> rfl

/-- The entry as one end of the pipe in `page`. -/
def asEnd (x : File) (page : Nat) (writable : Bool) : File :=
  { x with type := .pipe, readable := !writable, writable := writable, pipe := some page }

theorem pipeEnd_fine {k : Unit → K β} {page : Nat} {w : Bool} (hx : s.mem.ftable f = x)
    (h : Meets lstep Fine Q (k ()) (setFile (pass s (.opened f)) f (asEnd x page w))) :
    Meets lstep Fine Q (pipeEnd f page w >>= k) s := by
  subst hx
  exact meets_bind (free_point free_fine nofun (meets_last (free_modFile free_fine h)))

theorem pipealloc_fine {page : Option Nat} (h : Files 0 ∅ s) :
    Meets lstep Fine (fun r s' => s'.mem.ptable = s.mem.ptable ∧ match r with
      | none => Files 0 ∅ s'
      | some x => x.1 ≠ x.2 ∧ Files (Pi.single x.1 1 + Pi.single x.2 1) ∅ s' ∧
          (s'.mem.ftable x.1).ref = 1 ∧ (s'.mem.ftable x.2).ref = 1) (pipealloc page) s := by
  refine free_filealloc free_fine (fun a ha => ?_) fun _ => ⟨rfl, h⟩
  have h1 := h.alloc ha
  rw [zero_add] at h1
  generalize hs1 : setFile s a { s.mem.ftable a with ref := 1 } = s1 at h1
  have hp1 : s1.mem.ptable = s.mem.ptable := by rw [← hs1]; rfl
  have hra : (s1.mem.ftable a).ref = 1 := by
    rw [← hs1, show (setFile s a { s.mem.ftable a with ref := 1 }).mem.ftable a = _
      from update_self _ _ _]
  refine free_filealloc free_fine (fun b hb => ?_) fun _ => ?_
  · have hab : a ≠ b := by
      rintro rfl
      omega
    have h2 := h1.alloc hb
    generalize hs2 : setFile s1 b { s1.mem.ftable b with ref := 1 } = s2 at h2
    have hp2 : s2.mem.ptable = s.mem.ptable := by rw [← hs2]; exact hp1
    have hra2 : (s2.mem.ftable a).ref = 1 := by
      rw [← hs2, show (setFile s1 b _).mem.ftable a = _ from update_of_ne hab _ _, hra]
    have hrb2 : (s2.mem.ftable b).ref = 1 := by
      rw [← hs2, show (setFile s1 b _).mem.ftable b = _ from update_self _ _ _]
    rw [insert_empty_eq, pair_comm] at h2
    cases page with
    | none =>
      refine meets_mono (closeTwo_fine (r := none) hab h2 subset_rfl hra2 hrb2) (fun _ _ h => h) ?_
      rintro r s3 ⟨rfl, hf3, hp3⟩
      exact ⟨hp3.trans hp2, hf3⟩
    | some page =>
      refine kalloc_fine fun hpage => pipeEnd_fine (x := s2.mem.ftable a) rfl <|
        pipeEnd_fine (x := s2.mem.ftable b) (update_of_ne (Ne.symm hab) _ _) ⟨hp2, hab, ?_⟩
      refine ⟨h2.newPipe hab hpage hra2 hrb2 (x := asEnd (s2.mem.ftable a) page false)
        (y := asEnd (s2.mem.ftable b) page true) ⟨rfl, rfl, rfl⟩ hra2 ⟨rfl, rfl, rfl⟩ hrb2 rfl rfl rfl
        ?_, ?_, ?_⟩
      · intro e _
        show (pass (pass (pass s2 (.kalloc page)) (.opened a)) (.opened b)).passed e = _
        rw [pass_passed, pass_passed, pass_passed]
        grind
      · show (update (update s2.mem.ftable a _) b _ a).ref = 1
        rw [update_of_ne hab, update_self]
        exact hra2
      · show (update (update s2.mem.ftable a _) b _ b).ref = 1
        rw [update_self]
        exact hrb2
  · refine meets_seq (fileclose_fine h1 fun _ => hra) ?_
    rintro _ s2 ⟨hf2, hp2⟩
    refine ⟨hp2.trans hp1, ?_⟩
    rwa [sub_self, insert_diff_self (notMem_empty a)] at hf2

theorem sysPipe_files {ok : Bool} {page : Option Nat} (h : FileInv s)
    (hp : (s.mem.ptable p).state = .runnable) : KeepsFiles (sysPipe p ok page) s := by
  cases ok with
  | false => exact h
  | true =>
    refine meets_seq (pipealloc_fine h.files) fun r s1 ⟨hp1, hr⟩ => ?_
    cases r with
    | none => exact h.kept ⟨hr, hp1⟩
    | some x =>
      obtain ⟨hne, hf1, ha, hb⟩ := hr
      have hc1 : Closed s1.mem := by rw [Closed, hp1]; exact h.closed
      have hrun : (s1.mem.ptable p).state = .runnable := by rw [hp1]; exact hp
      refine free_fdalloc free_fine (fun fd0 hfree0 => ?_) fun _ => ?_
      · have hf2 := hf1.install (f := x.1) hfree0
        have hc2 := closed_setProc (p := p) (x := setFd (s1.mem.ptable p) fd0 (some x.1)) hc1
          fun hc => absurd hrun hc
        generalize hs2 : setProc s1 p (setFd (s1.mem.ptable p) fd0 (some x.1)) = s2 at hf2 hc2
        have hproc : s2.mem.ptable p = setFd (s1.mem.ptable p) fd0 (some x.1) := by
          rw [← hs2]; exact update_self _ _ _
        have hrun2 : (s2.mem.ptable p).state = .runnable := by rw [hproc]; exact hrun
        refine free_fdalloc free_fine (fun fd1 hfree1 => ?_) fun _ => ?_
        · refine ⟨?_, closed_setProc (p := p) hc2 fun hc => absurd hrun2 hc⟩
          have hf3 := hf2.install (f := x.2) hfree1
          rwa [add_sub_cancel_left, sub_self] at hf3
        · have hset : (s2.mem.ptable p).ofile fd0 = some x.1 := by
            rw [hproc]; exact update_self _ _ _
          have hf3 := hf2.uninstall hset
          rw [sub_add_cancel] at hf3
          have hc3 := closed_setProc (p := p) (x := setFd (s2.mem.ptable p) fd0 none) hc2
            fun hc => absurd hrun2 hc
          have href : ∀ g, ((setProc s2 p (setFd (s2.mem.ptable p) fd0 none)).mem.ftable g).ref
              = (s1.mem.ftable g).ref := by
            intro g; rw [← hs2]; rfl
          refine free_modProc free_fine (meets_mono (closeTwo_fine hne hf3 (empty_subset _)
            ((href _).trans ha) ((href _).trans hb)) (fun _ _ h => h) ?_)
          rintro _ s4 ⟨_, hf4, hp4⟩
          exact ⟨hf4, by rw [Closed, hp4]; exact hc3⟩
      · refine meets_mono (closeTwo_fine hne hf1 (empty_subset _) ha hb) (fun _ _ h => h) ?_
        rintro _ s2 ⟨_, hf2, hp2⟩
        exact ⟨hf2, by rw [Closed, hp2]; exact hc1⟩

/-! ## `chdir`, `fork`, `exit`, `wait` -/

theorem FileInv.setCwd {x : Proc} (h : FileInv s) (hofile : x.ofile = (s.mem.ptable p).ofile)
    (hstate : x.state = (s.mem.ptable p).state) : FileInv (setProc s p x) := by
  refine ⟨h.files.setProc hofile, closed_setProc h.closed fun hc => ?_⟩
  rw [hofile]
  exact h.closed p (by rw [← hstate]; exact hc)

theorem procCwd_fine {k : Fin NINODE → K β} (h : ∀ ip, (s.mem.ptable p).cwd = some ip → Meets lstep Fine Q (k ip) s) :
    Meets lstep Fine Q (procCwd p >>= k) s := by
  refine meets_bind (free_getProc free_fine ?_)
  cases hcwd : (s.mem.ptable p).cwd with
  | some ip => exact h ip hcwd
  | none => exact free_kpanic free_fine (by decide)

theorem ichdir_files {ip : Fin NINODE} (h : FileInv s) : KeepsFiles (ichdir p ip) s := by
  refine tame_meets (tame_calm calm_ilock) fun _ s1 h1 => free_getInode free_fine ?_
  split_ifs with htype
  · exact tame_meets (tame_calm calm_iunlockput) fun _ s2 h2 => tame_meets tame_endOp
      fun _ s3 h3 => h.alike ((h1.trans h2).trans h3)
  · refine tame_meets (tame_calm calm_iunlock) fun _ s2 h2 => procCwd_fine fun cwd _ =>
      tame_meets (tame_calm calm_iput) fun _ s3 h3 => tame_meets tame_endOp fun _ s4 h4 => ?_
    exact free_modProc free_fine
      ((h.alike (((h1.trans h2).trans h3).trans h4)).setCwd rfl rfl)

theorem sysChdir_files {path : Option (List UInt8)} (h : FileInv s) : KeepsFiles (sysChdir p path) s := by
  refine tame_meets tame_beginOp fun _ s1 h1 => ?_
  cases path with
  | none => exact tame_meets tame_endOp fun _ s2 h2 => h.alike (h1.trans h2)
  | some path =>
    refine tame_meets (tame_calm calm_namei) fun r s2 h2 => ?_
    cases r with
    | none => exact tame_meets tame_endOp fun _ s3 h3 => h.alike ((h1.trans h2).trans h3)
    | some ip => exact ichdir_files (h.alike (h1.trans h2))

theorem sysFchdir_files {fd : Int32} (h : FileInv s) : KeepsFiles (sysFchdir p fd) s := by
  refine argfd_files h fun y _ => ?_
  refine free_getFile free_fine ?_
  cases (s.mem.ftable y.2).ip with
  | none => exact free_kpanic free_fine (by decide)
  | some ip => exact ichdir_files h

/-- The loop of `fork` over the descriptors, from `fd` on: the child has none of these yet. -/
theorem forkFiles_files : ∀ (r fd : Nat) (s : LState), Files 0 ∅ s →
    (∀ c, fd ≤ c.val → (s.mem.ptable q).ofile c = none) →
    Meets lstep Fine (fun _ s' => Files 0 ∅ s' ∧ (∀ u, u ≠ q → s'.mem.ptable u = s.mem.ptable u) ∧
      (s'.mem.ptable q).state = (s.mem.ptable q).state) (forkFiles p q r fd) s := by
  intro r
  induction r with
  | zero => intro fd s h _; exact ⟨h, fun _ _ => rfl, rfl⟩
  | succ r ih =>
    intro fd s h hfree
    refine free_getProc free_fine ?_
    split_ifs with hfd
    · cases hf : (s.mem.ptable p).ofile ⟨fd, hfd⟩ with
      | none => exact ih (fd + 1) s h fun c hc => hfree c (by omega)
      | some f =>
        refine free_filedup free_fine fun href => free_modProc free_fine ?_
        have hf2 := (h.dup href).install (p := q) (f := f) (hfree ⟨fd, hfd⟩ (le_refl _))
        rw [add_sub_cancel_right] at hf2
        refine meets_mono (ih (fd + 1) _ hf2 fun c hc => ?_) (fun _ _ h => h) ?_
        · have hne' : c ≠ ⟨fd, hfd⟩ := by rintro rfl; exact absurd hc (Nat.not_succ_le_self fd)
          show (update s.mem.ptable q _ q).ofile c = none
          rw [update_self]
          show update (s.mem.ptable q).ofile ⟨fd, hfd⟩ (some f) c = none
          rw [update_of_ne hne']
          exact hfree c (by omega)
        · rintro _ s' ⟨hf', hother, hstate⟩
          refine ⟨hf', fun u hu => (hother u hu).trans (update_of_ne hu _ _), ?_⟩
          rw [hstate, show (setProc _ q _).mem.ptable q = _ from update_self _ _ _]
          rfl
    · exact ⟨h, fun _ _ => rfl, rfl⟩

theorem sysFork_files {room : Bool} (h : FileInv s) : KeepsFiles (sysFork p room) s := by
  refine free_getMem free_fine ?_
  cases hq : firstIdx (fun q : Fin NPROC => decide ((s.mem.ptable q).state = .unused)) with
  | none => exact h
  | some q =>
    have hunused : (s.mem.ptable q).state = .unused := of_decide_eq_true (firstIdx_some hq)
    have hnone := h.closed q (by rw [hunused]; exact nofun)
    cases room with
    | false => exact h
    | true =>
      refine meets_seq (forkFiles_files _ _ s h.files fun c _ => hnone c) ?_
      rintro _ s1 ⟨hf1, hother, _⟩
      refine procCwd_fine fun cwd _ => tame_meets (tame_calm calm_idup) fun ip s2 h2 =>
        free_modProc free_fine ?_
      refine ⟨(hf1.alike h2).setProc rfl, ?_⟩
      intro u hu fd
      by_cases huq : u = q
      · subst huq
        rw [show (setProc s2 u _).mem.ptable u = _ from update_self _ _ _] at hu
        exact absurd rfl hu
      · have heq : (setProc s2 q { s2.mem.ptable q with
            cwd := some ip, state := .runnable, parent := some p }).mem.ptable u
            = s.mem.ptable u :=
          (update_of_ne huq _ _).trans ((congrFun h2.ptable u).trans (hother u huq))
        rw [heq] at hu ⊢
        exact h.closed u hu fd

/-- The loop of `exit` over the descriptors, from `fd` on. -/
theorem exitFiles_files (r fd : Nat) (s : LState) (h : Files 0 ∅ s) (hr : NOFILE ≤ fd + r) :
    Meets lstep Fine (fun _ s' => Files 0 ∅ s' ∧ (∀ u, u ≠ p → s'.mem.ptable u = s.mem.ptable u) ∧
      (∀ c, c.val < fd → (s'.mem.ptable p).ofile c = (s.mem.ptable p).ofile c) ∧
      ∀ c, fd ≤ c.val → (s'.mem.ptable p).ofile c = none) (exitFiles p r fd) s := by
  induction r generalizing fd s with
  | zero =>
    exact ⟨h, fun _ _ => rfl, fun _ _ => rfl, fun c hc => by have := c.isLt; omega⟩
  | succ r ih =>
    refine free_getProc free_fine ?_
    split_ifs with hfd
    · cases hf : (s.mem.ptable p).ofile ⟨fd, hfd⟩ with
      | none =>
        refine meets_mono (ih (fd + 1) s h (by omega)) (fun _ _ h => h) ?_
        rintro _ s' ⟨hf', hother, hbelow, habove⟩
        refine ⟨hf', hother, fun c hc => hbelow c (by omega), fun c hc => ?_⟩
        by_cases heq : c.val = fd
        · have hc' : c = ⟨fd, hfd⟩ := Fin.ext heq
          rw [hbelow c (by omega), hc']
          exact hf
        · exact habove c (by omega)
      | some f =>
        refine meets_seq (fileclose_fine h fun hc => hc.elim) ?_
        rintro _ s1 ⟨hf1, hp1⟩
        have hset : (s1.mem.ptable p).ofile ⟨fd, hfd⟩ = some f := by rw [hp1]; exact hf
        have hf2 := hf1.uninstall hset
        rw [zero_sub, neg_add_cancel, empty_sdiff] at hf2
        refine free_modProc free_fine (meets_mono (ih (fd + 1) _ hf2 (by omega)) (fun _ _ h => h) ?_)
        have hself : ∀ c, ((setProc s1 p (setFd (s1.mem.ptable p) ⟨fd, hfd⟩ none)).mem.ptable p).ofile c
            = update (s.mem.ptable p).ofile ⟨fd, hfd⟩ none c := by
          intro c
          rw [show (setProc s1 p _).mem.ptable p = _ from update_self _ _ _, setFd, hp1]
        rintro _ s' ⟨hf', hother, hbelow, habove⟩
        refine ⟨hf', fun u hu => ?_, fun c hc => ?_, fun c hc => ?_⟩
        · exact (hother u hu).trans ((update_of_ne hu _ _).trans (congrFun hp1 u))
        · have hne : c ≠ ⟨fd, hfd⟩ := by rintro rfl; exact absurd hc (lt_irrefl fd)
          rw [hbelow c (by omega)]
          exact (hself c).trans (update_of_ne hne _ _)
        · by_cases heq : c.val = fd
          · have hc' : c = ⟨fd, hfd⟩ := Fin.ext heq
            rw [hbelow c (by omega), hc']
            exact (hself _).trans (update_self _ _ _)
          · exact habove c (by omega)
    · exact ⟨h, fun _ _ => rfl, fun _ _ => rfl, fun c hc => by have := c.isLt; omega⟩

theorem sysExit_files (h : FileInv s) : KeepsFiles (sysExit p) s := by
  rw [sysExit]
  split_ifs with hinit
  · exact free_kpanic free_fine (by decide)
  · refine meets_seq (exitFiles_files (p := p) NOFILE 0 s h.files (by omega)) ?_
    rintro _ s1 ⟨hf1, hother, _, hnone⟩
    refine tame_meets tame_beginOp fun _ s2 h2 => procCwd_fine fun cwd _ =>
      tame_meets (tame_calm calm_iput) fun _ s3 h3 => tame_meets tame_endOp fun _ s4 h4 => ?_
    have hs4 := (h2.trans h3).trans h4
    have hi4 : FileInv s4 := by
      refine ⟨hf1.alike hs4, fun u hu fd => ?_⟩
      rw [hs4.ptable] at hu ⊢
      by_cases hup : u = p
      · rw [hup]; exact hnone fd (Nat.zero_le _)
      · rw [hother u hup] at hu ⊢
        exact h.closed u hu fd
    have hp4 : ∀ fd, (s4.mem.ptable p).ofile fd = none := by
      intro fd
      rw [hs4.ptable]; exact hnone fd (Nat.zero_le _)
    refine free_modProc free_fine (free_modMem free_fine (free_modProc free_fine ?_))
    have hsame : ∀ x : Proc, (reparent p x).ofile = x.ofile ∧ (reparent p x).state = x.state := by
      intro x
      rw [reparent]
      split_ifs with hx
      · exact ⟨rfl, rfl⟩
      · exact ⟨rfl, rfl⟩
    have hi5 := hi4.setCwd (p := p) (x := { s4.mem.ptable p with cwd := none }) rfl rfl
    generalize hs5 : setProc s4 p { s4.mem.ptable p with cwd := none } = s5 at hi5
    have hp5 : ∀ fd, (s5.mem.ptable p).ofile fd = none := by
      intro fd
      rw [← hs5, show (setProc s4 p _).mem.ptable p = _ from update_self _ _ _]
      exact hp4 fd
    generalize hs6 : setTables s5 { s5.mem with ptable := fun q => reparent p (s5.mem.ptable q) } = s6
    have hp6 : ∀ u, (s6.mem.ptable u).ofile = (s5.mem.ptable u).ofile ∧
        (s6.mem.ptable u).state = (s5.mem.ptable u).state := by
      intro u; rw [← hs6]; exact hsame _
    have hi6 : FileInv s6 := by
      refine ⟨hi5.files.keep (by rw [← hs6]; rfl) ?_ (by rw [← hs6]; rfl) fun e _ => by rw [← hs6]; rfl, ?_⟩
      · funext ⟨u, c⟩
        exact congrFun (hp6 u).1 c
      · intro u hu fd
        rw [(hp6 u).1]
        rw [(hp6 u).2] at hu
        exact hi5.closed u hu fd
    refine ⟨hi6.files.setProc rfl, closed_setProc hi6.closed fun _ fd => ?_⟩
    rw [(hp6 p).1]
    exact hp5 fd

theorem sysWait_files (h : FileInv s) : KeepsFiles (sysWait p) s := by
  refine free_getMem free_fine ?_
  cases hq : firstIdx (fun q : Fin NPROC => decide ((s.mem.ptable q).parent = some p) &&
      decide ((s.mem.ptable q).state = .zombie)) with
  | some q =>
    have hz := firstIdx_some hq
    simp only [Bool.and_eq_true, decide_eq_true_eq] at hz
    have hnone := h.closed q (by rw [hz.2]; exact nofun)
    exact free_modProc free_fine ⟨h.files.setProc rfl, closed_setProc h.closed fun _ => hnone⟩
  | none =>
    cases firstIdx (fun q : Fin NPROC => decide ((s.mem.ptable q).parent = some p)) with
    | none => exact h
    | some _ =>
      refine free_input free_fine fun v => ?_
      split
      · exact h.alike ⟨rfl, rfl, rfl, fun _ _ => rfl⟩
      · exact free_halt free_fine nofun nofun

/-- **Every call** keeps the file table in order and uses no freed page. -/
theorem syscall_files (c : Call) (h : FileInv s) (hp : (s.mem.ptable p).state = .runnable) :
    KeepsFiles (syscall p c) s := by
  have htame : ∀ {q : K Int}, Tame q → KeepsFiles q s :=
    fun hq => meets_mono (hq s) (fun _ _ h => h) fun _ _ => h.alike
  cases c with
  | openFile path omode => exact sysOpen_files h hp
  | read fd n buf => exact sysRead_files h
  | write fd buf n => exact sysWrite_files h
  | close fd => exact sysClose_files h hp
  | dup fd => exact sysDup_files h hp
  | fstat fd st => exact sysFstat_files h
  | lseek fd offset base uninit after => exact sysLseek_files h
  | ioctl fd => exact sysIoctl_files h
  | pipe ok page => exact sysPipe_files h hp
  | link old new => exact htame tame_sysLink
  | unlink path => exact htame tame_sysUnlink
  | mkdir path | mknod path major minor => exact htame tame_sysCreate
  | chdir path => exact sysChdir_files h
  | fchdir fd => exact sysFchdir_files h
  | exec path => exact htame tame_sysExec
  | fork room => exact sysFork_files h
  | exit => exact sysExit_files h
  | wait => exact sysWait_files h
  | other => exact htame (tame_then calm_input fun _ => tame_pure)

end Calls

/-! ## Whole runs -/

/-- Nothing is open and nothing has been counted. -/
structure Fresh (s : LState) : Prop where
  ftable : ∀ f, (s.mem.ftable f).ref = 0 ∧ (s.mem.ftable f).type = .none
  ofile : ∀ q fd, (s.mem.ptable q).ofile fd = none
  pipes : ∀ page, s.mem.pipes page = none
  passed : ∀ e, s.passed e = 0

/-- Some descriptor is an end of the pipe in `page`. -/
def Attached (m : Mem) (page : Nat) (writable : Bool) : Prop :=
  ∃ q fd f, (m.ptable q).ofile fd = some f ∧ EndOf (m.ftable f) page writable

section Runs

variable {s : LState} {f : Fin NFILE} {page : Nat}

theorem fresh_inv (h : Fresh s) : FileInv s := by
  have hzero : ∀ f, descriptors s.mem f = 0 := fun f =>
    refs_eq_zero.mpr fun x hx => nomatch (h.ofile x.1 x.2).symm.trans hx
  refine ⟨⟨fun f => ?_, fun f => ?_, ?_⟩, fun q _ => h.ofile q⟩
  · rw [(h.ftable f).1, hzero f]; rfl
  · exact ⟨fun _ => .inl (h.ftable f).1, fun _ => (h.ftable f).2⟩
  · refine ⟨fun f hf => ?_, fun f hf => ?_, fun f _ hf => ?_, fun q z hz => ?_, fun f => ?_, fun q => ?_⟩
    · cases (h.ftable f).2.symm.trans hf
    · cases (h.ftable f).2.symm.trans hf
    · cases (h.ftable f).2.symm.trans hf
    · cases (h.pipes q).symm.trans hz
    · rw [(h.ftable f).2, if_pos rfl, h.passed, h.passed]
    · rw [h.pipes q, if_pos rfl, h.passed, h.passed]

/-- An entry holds something exactly while descriptors point to it. -/
theorem FileInv.held (h : FileInv s) : (s.mem.ftable f).type = .none ↔ ¬ 0 < descriptors s.mem f := by
  have hcount := h.files.count f
  rw [Pi.zero_apply, Int.add_zero] at hcount
  rw [h.files.kind f, hcount, mem_empty_iff_false, or_false]
  omega

/-- An end of a pipe is open exactly while a descriptor points to it. -/
theorem FileInv.attached (h : FileInv s) {z : Pipe} (hz : s.mem.pipes page = some z) (w : Bool) :
    openEnd z w = true ↔ Attached s.mem page w := by
  constructor
  · intro hw
    obtain ⟨f, hend⟩ := (h.files.ends.page page z hz).2 w hw
    have hpos : 0 < descriptors s.mem f := by
      by_contra hno
      cases (h.held.mpr hno).symm.trans hend.1
    obtain ⟨⟨q, fd⟩, hfd⟩ := refs_pos.mp hpos
    exact ⟨q, fd, f, hfd, hend⟩
  · rintro ⟨q, fd, f, _, htype, hpage, rfl⟩
    obtain ⟨page', z', hpage', hz', hopen⟩ := h.files.ends.pipe f htype
    rw [hpage] at hpage'
    cases hpage'
    rw [hz] at hz'
    cases hz'
    exact hopen

/-- A page is a pipe exactly while a descriptor is one of its ends. -/
theorem FileInv.isPipe (h : FileInv s) : s.mem.pipes page = none ↔ ¬ ∃ w, Attached s.mem page w := by
  constructor
  · rintro hnone ⟨w, q, fd, f, _, htype, hpage, _⟩
    obtain ⟨page', z', hpage', hz', _⟩ := h.files.ends.pipe f htype
    rw [hpage] at hpage'
    cases hpage'
    cases hnone.symm.trans hz'
  · intro hno
    cases hz : s.mem.pipes page with
    | none => rfl
    | some z =>
      obtain ⟨w, hw⟩ := (h.files.ends.page page z hz).1
      exact absurd ⟨w, (h.attached hz w).mp hw⟩ hno

/-- **File-table counts and pipe lifetime.** In every state that completed calls lead to, the count
    of an entry is the number of descriptors that point to it; what an entry was filled in with has
    been given back each time but for the entries with descriptors now; a page has been freed each
    time it became a pipe but for the pages with a descriptor on one of their ends now, and each end
    is open as long as it has a descriptor. No call touches a freed page. -/
theorem files_counted (h : Reach Fresh (fun _ _ _ => True) s) : (∀ f, (s.mem.ftable f).ref = descriptors s.mem f) ∧
    (∀ f, s.passed (.released f) + (if 0 < descriptors s.mem f then 1 else 0) = s.passed (.opened f)) ∧
    (∀ page, ((¬ ∃ w, Attached s.mem page w) → s.passed (.kfree page) = s.passed (.kalloc page)) ∧
      ((∃ w, Attached s.mem page w) → s.passed (.kfree page) + 1 = s.passed (.kalloc page))) ∧
    (∀ page z, s.mem.pipes page = some z → (z.readopen = true ↔ Attached s.mem page false) ∧
      (z.writeopen = true ↔ Attached s.mem page true)) ∧
    ∀ p c s', (s.mem.ptable p).state = .runnable → exec (syscall p c) s ≠ .stop .freed s' := by
  have hinv : FileInv s :=
    reach_induction (fun _ => fresh_inv) (fun _ _ c hi hp _ => syscall_files c hi hp) h
  refine ⟨fun f => ?_, fun f => ?_, fun page => ⟨fun hno => ?_, fun hatt => ?_⟩,
    fun page z hz => ⟨hinv.attached hz false, hinv.attached hz true⟩, ?_⟩
  · have := hinv.files.count f
    rwa [Pi.zero_apply, Int.add_zero] at this
  · rw [← hinv.files.ends.files f]
    split
    · next hpos =>
      rw [if_neg fun hnone => hinv.held.mp hnone hpos]
    · next hpos =>
      rw [if_pos (hinv.held.mpr hpos)]
  · have := hinv.files.ends.pages page
    rwa [if_pos (hinv.isPipe.mpr hno)] at this
  · have := hinv.files.ends.pages page
    rwa [if_neg fun hnone => hinv.isPipe.mp hnone hatt] at this
  · intro p c s' hp hstop
    obtain ⟨cmd, t, hfine, ht⟩ := meets_stop (syscall_files c hinv hp) hstop
    rcases lstep_stop ht with rfl | hm
    · exact hfine rfl
    · exact absurd hm (by decide)

/-- The tables of a machine with one process and nothing open. -/
def oneProcess : Mem :=
  { Mem.blank with ptable := fun q =>
      if q = initproc then { Mem.blank.ptable q with state := .runnable } else Mem.blank.ptable q }

/-- Such a machine, with an empty disk. -/
def quiet : LState where
  view := fun _ => zeros
  lh := []
  logSize := 0
  outstanding := 0
  mem := oneProcess
  input := fun _ => 0
  passed := fun _ => 0

/-- It makes a pipe in page 7. -/
def piped : LState := (exec (syscall initproc (.pipe true (some 7))) quiet).state

/-- It closes the writing end. -/
def halfClosed : LState := (exec (syscall initproc (.close 1)) piped).state

theorem fresh_quiet : Fresh quiet := by
  refine ⟨fun _ => ⟨rfl, rfl⟩, fun q fd => ?_, fun _ => rfl, fun _ => rfl⟩
  show (if q = initproc then _ else Mem.blank.ptable q).ofile fd = none
  split_ifs with hq
  · rfl
  · rfl

theorem reach_piped : Reach Fresh (fun _ _ _ => True) piped := by
  have hpipe : exec (syscall initproc (.pipe true (some 7))) quiet = .done 0 piped := rfl
  exact .call (.start fresh_quiet) rfl trivial hpipe

theorem files_counted_halfClosed : Reach Fresh (fun _ _ _ => True) halfClosed ∧
    halfClosed.passed (.kfree 7) + 1 = halfClosed.passed (.kalloc 7) := by
  have hclose : exec (syscall initproc (.close 1)) piped = .done 0 halfClosed := rfl
  have hreach : Reach Fresh (fun _ _ _ => True) halfClosed := .call reach_piped rfl trivial hclose
  have hend : Attached halfClosed.mem 7 false :=
    ⟨initproc, ⟨0, by decide⟩, ⟨0, by decide⟩, rfl, rfl, rfl, rfl⟩
  exact ⟨hreach, ((files_counted hreach).2.2.1 7).2 ⟨false, hend⟩⟩

end Runs

end Xv6Files
