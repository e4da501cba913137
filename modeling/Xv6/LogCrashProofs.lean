import Xv6.LogCodeProofs

/-!
# Crash atomicity of the log

`commit` writes the blocks of a transaction to the log, then the header, then the blocks to
their homes, then an empty header. The machine may stop between any two of these writes,
and again between any two writes of the recovery that follows. Whatever the history, the
recovery that completes leaves at every home block what it held before the transaction, or
at every home block what the transaction put there; and it is the latter exactly when the
first header write had reached the disk.

No assumption is made on the disk the machine was first started with: that the log is
empty when a transaction begins is what a completed recovery, or a completed commit, leaves
behind (`IdleDisk`).
-/

namespace Xv6Crash

open CmdProg ByteBuf Xv6Disk Xv6Kernel RedoLog Xv6Buf Xv6Log Function List Prod

/-- A buffer as `binit` leaves it. -/
def emptyBuf : Buf := ⟨none, false, false, false, zeros⟩

/-- The machine switched on again with the disk `d`: nothing is cached, and of the log only
    its place on the disk is known. -/
def reboot (h : HState) (d : Nat → Block) : HState :=
  { h with
    base := d
    writes := []
    bcache := replicate NBUF emptyBuf
    log := { h.log with outstanding := 0, committing := false, lh := [] } }

/-- The writes that a piece of code issues from `h`. -/
def newWrites {α : Type} (m : HCode α) (h : HState) : List (Nat × Block) :=
  (m h).state.writes.drop h.writes.length

/-- The disk after several recoveries, each of them cut off after so many writes. -/
def crashAgain (h : HState) : List Nat → (Nat → Block) → (Nat → Block)
  | [], d => d
  | k :: ks, d => crashAgain h ks (applyW ((newWrites recoverFromLog (reboot h d)).take k) d)

/-- The block lies outside the log area. -/
def OutsideLog (h : HState) (b : Nat) : Prop :=
  b < h.log.start ∨ h.log.start + h.log.size ≤ b

/-- A transaction ready to be committed: its blocks are listed in the in-memory header,
    their new contents are in the cache, and everything else in the cache agrees with the
    disk. `log_write` has checked the two bounds on the length. -/
structure Loaded (h : HState) (tx : List (Nat × Block)) : Prop where
  lh : h.log.lh = tx.map fst
  nodup : (tx.map fst).Nodup
  length_le : tx.length ≤ LOGSIZE
  length_lt : tx.length < h.log.size
  home : ∀ b ∈ tx.map fst, b < FSSIZE ∧ OutsideLog h b
  area : h.log.start + h.log.size ≤ FSSIZE
  cached : ∃ m, Cached h h.disk m [] (tx.map fst) ∧ ∀ w ∈ tx, m w.1 = some w.2

/-- The disks on which the kernel starts a transaction: what `recover_from_log` made of any
    disk at all, and what `commit` made of such a disk. -/
inductive IdleDisk (start size : Nat) : (Nat → Block) → Prop where
  | recovered {h h' : HState} {d : Nat → Block} (hstart : h.log.start = start)
      (hsize : h.log.size = size) (hrun : recoverFromLog (reboot h d) = .done () h') :
      IdleDisk start size h'.disk
  | committed {h h' : HState} {tx : List (Nat × Block)} (hstart : h.log.start = start)
      (hsize : h.log.size = size) (hidle : IdleDisk start size h.disk) (hl : Loaded h tx)
      (hrun : commit h = .done () h') : IdleDisk start size h'.disk

/-! ## Recovery -/

theorem reboot_cached (h : HState) (d : Nat → Block) : Cached (reboot h d) d clean [] [] := by
  have hmem : ∀ x ∈ (reboot h d).bcache, x = emptyBuf := fun x hx => eq_of_mem_replicate hx
  have hblocks : blocks (reboot h d).bcache = [] := by
    show (replicate NBUF emptyBuf).filterMap Buf.blockno = []
    rw [filterMap_eq_nil_iff]
    intro x hx
    rw [hmem x hx]
    rfl
  refine ⟨rfl, length_replicate, by rw [hblocks]; exact nodup_nil, ?_, ?_, ?_, ?_⟩
  · intro x hx _
    rw [hmem x hx]
    exact ⟨rfl, rfl⟩
  · intro x hx b hb
    rw [hmem x hx] at hb
    cases hb
  · rintro b (hb | hb) <;> exact nomatch hb
  · intro b hb; exact absurd rfl hb

section Recovery

variable {h : HState} {d : Nat → Block}

/-- The header of `d` lists what a transaction of this log can list. -/
structure HeadOk (h : HState) (d : Nat → Block) : Prop where
  area : h.log.start + h.log.size ≤ FSSIZE
  length_le : (getHead (d h.log.start)).length ≤ LOGSIZE
  length_lt : (getHead (d h.log.start)).length < h.log.size
  home : ∀ b ∈ getHead (d h.log.start), b < FSSIZE ∧ OutsideLog h b

/-- **Recovery completes**, and its writes are those of a redo log. -/
theorem recover_done (hok : HeadOk h d) : ∃ h', recoverFromLog (reboot h d) = .done () h' ∧ h'.base = d ∧
      h'.writes = recoverW (logFormat h.log.start h.log.size) d (d h.log.start) := by
  have hle : ∀ b ∈ getHead (d h.log.start), b < h.log.start ∨ h.log.start + (getHead (d h.log.start)).length < b := by
    intro b hb
    have := hok.length_lt
    rcases (hok.home b hb).2 with h1 | h1
    · exact .inl h1
    · exact .inr (by omega)
  have hem := recover_emits (G := True) (reboot_cached h d)
    (show (reboot h d).log.start = h.log.start from rfl) ?_
  · have hW : recoverWrites h.log.start d = recoverW (logFormat h.log.start h.log.size) d (d h.log.start) := by
      have hinst : installW h.log.start d 0 (getHead (d h.log.start))
          = logged (logFormat h.log.start h.log.size) d 0 (getHead (d h.log.start)) := by
        refine installW_eq_logged _ 0 d ?_
        intro b hb
        rcases hle b hb with h1 | h1
        · exact .inl (by omega)
        · exact .inr (by omega)
      have hkeep : applyW (installW h.log.start d 0 (getHead (d h.log.start))) d h.log.start = d h.log.start := by
        refine applyW_of_notMem ?_ d
        rw [hinst, logged_map_fst]
        intro hmem
        rcases hle _ hmem with h1 | h1 <;> omega
      rw [recoverWrites, hkeep, hinst]
      rfl
    rw [hW] at hem
    cases hrun : recoverFromLog (reboot h d) with
    | stop e h' =>
      simp only [Emits, hrun] at hem
      exact absurd trivial hem.1
    | done a h' =>
      simp only [Emits, hrun] at hem
      obtain ⟨hw, hf, _⟩ := hem
      exact ⟨h', rfl, hf.base, hw⟩
  · intro _
    have h1 := hok.area
    have h2 := hok.length_lt
    refine ⟨by omega, hok.length_le, ?_⟩
    intro b hb
    refine ⟨(hok.home b hb).1, ?_⟩
    rcases hle b hb with h3 | h3
    · exact .inl (by omega)
    · exact .inr h3

theorem newWrites_recover (hok : HeadOk h d) : newWrites recoverFromLog (reboot h d)
      = recoverW (logFormat h.log.start h.log.size) d (d h.log.start) := by
  obtain ⟨h', hrun, _, hw⟩ := recover_done hok
  show (recoverFromLog (reboot h d)).state.writes.drop 0 = _
  rw [hrun]
  exact hw

end Recovery

/-! ## Phases of the disk -/

section Phases

variable {h : HState} {tx : List (Nat × Block)} {old d : Nat → Block}

section

variable (hl : Loaded h tx)
include hl

theorem Loaded.size_pos : 0 < h.log.size := by
  have := hl.length_lt
  omega

theorem Loaded.fits : Fits (logFormat h.log.start h.log.size) tx := by
  have hlen := hl.length_lt
  refine ⟨⟨?_, ?_, fun b hb => (hl.home b hb).1⟩, hl.nodup, ?_⟩
  · rw [length_map]; exact hl.length_le
  · rw [length_map]; omega
  · intro b hb hin
    rw [inLog_iff hl.size_pos] at hin
    rcases (hl.home b hb).2 with h1 | h1 <;> omega

theorem headOk_nil (hclear : getHead (d h.log.start) = []) : HeadOk h d := by
  refine ⟨hl.area, ?_, ?_, ?_⟩
  · rw [hclear]; exact Nat.zero_le _
  · rw [hclear]; exact hl.size_pos
  · rw [hclear]; rintro _ ⟨⟩

theorem headOk_pending
    (hp : Pending (logFormat h.log.start h.log.size) old d) : HeadOk h d :=
  headOk_nil hl hp.1

theorem headOk_committed
    (hp : Committed (logFormat h.log.start h.log.size) old tx d) : HeadOk h d := by
  rcases hp with ⟨hhead, _, _⟩ | ⟨hclear, _⟩
  · have hh : getHead (d h.log.start) = tx.map fst := hhead
    refine ⟨hl.area, ?_, ?_, ?_⟩
    · rw [hh, length_map]; exact hl.length_le
    · rw [hh, length_map]; exact hl.length_lt
    · rw [hh]; exact hl.home
  · exact headOk_nil hl hclear

/-- A block outside the log area is neither the header nor a log block. -/
theorem notInLog_outside {b : Nat} (hb : OutsideLog h b) : ¬ InLog (logFormat h.log.start h.log.size) b := by
  rw [inLog_iff hl.size_pos]
  rintro ⟨h1, h2⟩
  rcases hb with h3 | h3 <;> omega

/-- A phase that cut-off recoveries keep, and what the recovery that completes leaves outside the log. -/
theorem recovered_phase {P : (Nat → Block) → Prop} {home : Nat → Block} (hok : ∀ d, P d → HeadOk h d)
    (hkeep : ∀ d v k, P d → P (applyW ((recoverW (logFormat h.log.start h.log.size) d v).take k) d))
    (hhome : ∀ d v b, P d → ¬ InLog (logFormat h.log.start h.log.size) b →
      applyW (recoverW (logFormat h.log.start h.log.size) d v) d b = home b) (ks : List Nat) (hp : P d) :
    ∃ h', recoverFromLog (reboot h (crashAgain h ks d)) = .done () h' ∧ ∀ b, OutsideLog h b → h'.disk b = home b := by
  induction ks generalizing d with
  | nil =>
    obtain ⟨h', hrun, hbase, hw⟩ := recover_done (hok d hp)
    refine ⟨h', hrun, fun b hb => ?_⟩
    show applyW h'.writes h'.base b = home b
    rw [hw, hbase]
    exact hhome d _ b hp (notInLog_outside hl hb)
  | cons k ks ih =>
    rw [crashAgain, newWrites_recover (hok d hp)]
    exact ih (hkeep d _ k hp)

/-- Before the commit point the old contents come back … -/
theorem recovered_pending (ks : List Nat) (hp : Pending (logFormat h.log.start h.log.size) old d) :
    ∃ h', recoverFromLog (reboot h (crashAgain h ks d)) = .done () h' ∧ ∀ b, OutsideLog h b → h'.disk b = old b :=
  recovered_phase hl (fun _ => headOk_pending hl) (fun _ v k hd => pending_recover hd v k)
    (fun _ v _ hd => recover_home_pending hd v) ks hp

/-- … and after it the new ones. -/
theorem recovered_committed (ks : List Nat) (hp : Committed (logFormat h.log.start h.log.size) old tx d) :
    ∃ h', recoverFromLog (reboot h (crashAgain h ks d)) = .done () h' ∧
      ∀ b, OutsideLog h b → h'.disk b = applyW tx old b :=
  recovered_phase hl (fun _ => headOk_committed hl) (fun _ v k hd => committed_recover hl.fits hd v k)
    (fun _ v _ hd => recover_home_committed hd v) ks hp

end

end Phases

/-! ## Commit -/

section Commit

variable {h : HState} {tx : List (Nat × Block)}

/-- A commit from an empty log writes `commitWrites`, or a prefix of it; it completes when
    a buffer is left for the log block. -/
theorem commit_writes (hl : Loaded h tx) (hclear : getHead (h.disk h.log.start) = []) :
    Emits HState.writes (tx.length < NBUF) commit h
      (commitWrites h.log.start h.log.size h.disk tx) (fun _ h' => LogFrame h { h.log with lh := [] } h' ∧
        Cached h' (applyW (commitWrites h.log.start h.log.size h.disk tx) h.disk) clean [] []) := by
  obtain ⟨m, hc, hm⟩ := hl.cached
  refine commit_emits rfl hl.lh hc hm hl.fits hclear ?_
  intro hg
  have h1 := hl.area
  have h2 := hl.length_lt
  exact ⟨hg, by omega⟩

/-- All that a commit writes puts the transaction home and leaves the log empty. -/
theorem commitWrites_complete (hl : Loaded h tx) (hclear : getHead (h.disk h.log.start) = []) :
    Pending (logFormat h.log.start h.log.size) (applyW tx h.disk)
      (applyW (commitWrites h.log.start h.log.size h.disk tx) h.disk) := by
  have hpend : Pending (logFormat h.log.start h.log.size) h.disk h.disk :=
    ⟨hclear, fun _ _ => rfl⟩
  rw [commitWrites]
  split_ifs with htx
  · subst htx
    exact hpend
  · exact commit_complete hl.fits hpend _ _

/-- **A commit with a buffer left for the log block** completes: it issues the writes of
    `write_log`, `write_head`, `install_trans` and `write_head`, and the transaction is home. -/
theorem commit_done (hl : Loaded h tx) (hclear : getHead (h.disk h.log.start) = []) (hlt : tx.length < NBUF) :
    ∃ h', commit h = .done () h' ∧ newWrites commit h = commitWrites h.log.start h.log.size h.disk tx ∧
      ∀ b, OutsideLog h b → h'.disk b = applyW tx h.disk b := by
  have hem := commit_writes hl hclear
  cases hrun : commit h with
  | done a h' =>
    simp only [Emits, hrun] at hem
    obtain ⟨hw, _, hc⟩ := hem
    refine ⟨h', rfl, ?_, fun b hb => ?_⟩
    · rw [newWrites, hrun]
      show h'.writes.drop _ = _
      rw [hw, drop_left]
    · rw [hc.disk]
      exact (commitWrites_complete hl hclear).2 b (notInLog_outside hl hb)
  | stop e h' =>
    simp only [Emits, hrun] at hem
    exact absurd hlt hem.1

/-- **The log is empty on the disks the kernel works on.** -/
theorem idle_clear {start size : Nat} {d : Nat → Block} (hd : IdleDisk start size d) : getHead (d start) = [] := by
  have hnil : ∀ v : Block, getHead (putHead v []) = [] := fun v =>
    getHead_putHead v (Nat.zero_le _) (by rintro _ ⟨⟩)
  induction hd with
  | @recovered h h' d hstart hsize hrun =>
    have hem := recover_emits (G := False) (reboot_cached h d)
      (show (reboot h d).log.start = start from hstart) False.elim
    simp only [Emits, hrun] at hem
    obtain ⟨_, _, hc⟩ := hem
    rw [hc.disk, recoverWrites, applyW_append, applyW_cons, applyW_nil, update_self]
    exact hnil _
  | @committed h h' tx hstart hsize _ hl hrun ih =>
    subst hstart hsize
    have hem := commit_writes hl ih
    simp only [Emits, hrun] at hem
    obtain ⟨_, _, hc⟩ := hem
    rw [hc.disk]
    exact (commitWrites_complete hl ih).1

/-- The writes that a commit issues are a beginning of `commitWrites`. -/
theorem newWrites_commit (hl : Loaded h tx) (hclear : getHead (h.disk h.log.start) = []) :
    newWrites commit h <+: commitWrites h.log.start h.log.size h.disk tx := by
  have hem := commit_writes hl hclear
  cases hrun : commit h with
  | done a h' =>
    simp only [Emits, hrun] at hem
    show (commit h).state.writes.drop _ <+: _
    rw [hrun]
    show h'.writes.drop _ <+: _
    refine ⟨[], ?_⟩
    rw [append_nil, hem.1, drop_left]
  | stop e h' =>
    simp only [Emits, hrun] at hem
    obtain ⟨_, vs, hpre, hw⟩ := hem
    show (commit h).state.writes.drop _ <+: _
    rw [hrun]
    show h'.writes.drop _ <+: _
    rw [hw, drop_left]
    exact hpre

/-- The header is written once the blocks of the transaction are in the log. -/
theorem head_mem_take {start size : Nat} (v v' : Block) (k : Nat) :
    start ∈ ((commitW (logFormat start size) tx v v').take k).map fst ↔ tx.length < k := by
  have hS : (slotW (logFormat start size) 0 (tx.map snd)).length = tx.length := by
    rw [length_slotW, length_map]
  have hnot : start ∉ (slotW (logFormat start size) 0 (tx.map snd)).map fst := by
    intro hmem
    obtain ⟨j, _, _, hj⟩ := mem_slotW _ _ 0 hmem
    have hj' : start = start + j + 1 := hj
    omega
  rw [commitW]
  constructor
  · intro hmem
    by_contra hle
    rw [take_append_of_le_length (by omega), map_take] at hmem
    exact hnot (mem_of_mem_take hmem)
  · intro hlt
    obtain ⟨j, rfl⟩ : ∃ j, k = tx.length + (j + 1) := ⟨k - tx.length - 1, by omega⟩
    rw [take_append, take_of_length_le (by omega), hS, Nat.add_sub_cancel_left, take_succ_cons, map_append, map_cons]
    exact mem_append.mpr (.inr (mem_cons_self ..))

/-- **Crash atomicity of the redo log.** Start from any disk on which the kernel can be
    running and any transaction in its cache. Where a buffer is left for the log block,
    `commit` completes, issues the writes `commitWrites` — the log blocks, the header, the
    home blocks, the cleared header — and leaves the new contents outside the log; it never
    issues others. Stop the machine after any number `k` of the disk writes it issues, stop any number of recoveries after any number of
    their writes, and let a last recovery run: it completes, and outside the log area every
    block holds the new contents if the first header write had reached the disk, and every
    block holds the old contents if not. -/
theorem commit_crash_atomic (hidle : IdleDisk h.log.start h.log.size h.disk) (hl : Loaded h tx) :
    (tx.length < NBUF → ∃ h', commit h = .done () h' ∧
      newWrites commit h = commitWrites h.log.start h.log.size h.disk tx ∧
      ∀ b, OutsideLog h b → h'.disk b = applyW tx h.disk b) ∧
    newWrites commit h <+: commitWrites h.log.start h.log.size h.disk tx ∧
    ∀ (k : Nat) (ks : List Nat), ∃ h', recoverFromLog (reboot h
        (crashAgain h ks (applyW ((newWrites commit h).take k) h.disk))) = .done () h' ∧
      ∀ b, OutsideLog h b → h'.disk b = if h.log.start ∈ ((newWrites commit h).take k).map fst then applyW tx h.disk b
        else h.disk b := by
  have hclear := idle_clear hidle
  have hpend : Pending (logFormat h.log.start h.log.size) h.disk h.disk :=
    ⟨hclear, fun _ _ => rfl⟩
  refine ⟨commit_done hl hclear, newWrites_commit hl hclear, ?_⟩
  · intro k ks
    -- the writes that reached the disk, as a beginning of all that a commit writes
    obtain ⟨rest, hrest⟩ := newWrites_commit hl hclear
    obtain ⟨n, hn⟩ : ∃ n, (newWrites commit h).take k = (commitWrites h.log.start h.log.size h.disk tx).take n := by
      refine ⟨min k (newWrites commit h).length, ?_⟩
      rw [← hrest, take_append_of_le_length (Nat.min_le_right _ _)]
      exact take_eq_take_min ..
    rw [hn, commitWrites]
    by_cases htx : tx = []
    · -- nothing is written, and nothing changes
      rw [if_pos htx, take_nil]
      obtain ⟨h', hrun, hhome⟩ := recovered_pending hl ks hpend
      refine ⟨h', hrun, fun b hb => ?_⟩
      exact hhome b hb
    · rw [if_neg htx]
      by_cases hlt : tx.length < n
      · have hcom := committed_commit hl.fits hpend (h.disk h.log.start)
          (putHead (h.disk h.log.start) (tx.map fst)) hlt
        obtain ⟨h', hrun, hhome⟩ := recovered_committed hl ks hcom
        refine ⟨h', hrun, fun b hb => ?_⟩
        rw [if_pos ((head_mem_take _ _ n).mpr hlt)]
        exact hhome b hb
      · have hpre := pending_commit hl.fits hpend (h.disk h.log.start)
          (putHead (h.disk h.log.start) (tx.map fst)) (not_lt.mp hlt)
        obtain ⟨h', hrun, hhome⟩ := recovered_pending hl ks hpre
        refine ⟨h', hrun, fun b hb => ?_⟩
        rw [if_neg (fun hmem => hlt ((head_mem_take _ _ n).mp hmem))]
        exact hhome b hb

end Commit

/-- A block of ones. -/
def ones : Block := blit zeros 0 BSIZE fun _ => 255

/-- The log area of `mkfs` (`logstart = 2`, `nlog = 30`) after a first boot on a disk of
    zeros, with block 100 changed in the cache. -/
def oneBlock : HState where
  base := applyW (recoverW (logFormat 2 30) (fun _ => zeros) zeros) fun _ => zeros
  writes := []
  bcache := ⟨some 100, false, true, true, ones⟩ :: replicate 29 emptyBuf
  log := ⟨2, 30, 0, true, [100]⟩

theorem getHead_zeros : getHead (zeros : Block) = [] := by
  show (range (headN (zeros : Block)).toNat).map _ = []
  have hn : headN (zeros : Block) = 0 := by rw [headN, u32At_zeros]; rfl
  rw [hn]; rfl

theorem oneBlock_idle : IdleDisk oneBlock.log.start oneBlock.log.size oneBlock.disk := by
  have hok : HeadOk oneBlock (fun _ => zeros) := by
    refine ⟨by decide, ?_, ?_, ?_⟩
    · rw [getHead_zeros]; decide
    · rw [getHead_zeros]; decide
    · rw [getHead_zeros]; rintro _ ⟨⟩
  obtain ⟨h', hrun, hbase, hw⟩ := recover_done hok
  have hdisk : h'.disk = oneBlock.disk := by
    show applyW h'.writes h'.base = _
    rw [hw, hbase]
    rfl
  rw [← hdisk]
  exact IdleDisk.recovered rfl rfl hrun

theorem oneBlock_cached : Cached oneBlock oneBlock.disk (update clean 100 (some ones)) [] [100] := by
  have hmem : ∀ x ∈ oneBlock.bcache, x = ⟨some 100, false, true, true, ones⟩ ∨ x = emptyBuf := by
    intro x hx
    rcases mem_cons.mp hx with h1 | h1
    · exact .inl h1
    · exact .inr (eq_of_mem_replicate h1)
  have hblocks : blocks oneBlock.bcache = [100] := rfl
  refine ⟨rfl, rfl, by rw [hblocks]; exact nodup_singleton _, ?_, ?_, ?_, ?_⟩
  · intro x hx hnone
    rcases hmem x hx with rfl | rfl
    · cases hnone
    · exact ⟨rfl, rfl⟩
  · intro x hx b hb
    rcases hmem x hx with rfl | rfl
    · cases hb
      exact ⟨rfl, by decide, by simp, by simp, rfl⟩
    · cases hb
  · rintro b (hb | hb)
    · rw [hblocks]; exact hb
    · cases hb
  · intro b hb
    by_cases h100 : b = 100
    · exact .inl (by rw [h100]; exact mem_singleton_self _)
    · rw [update_of_ne h100] at hb
      exact absurd rfl hb

theorem oneBlock_loaded : Loaded oneBlock [(100, ones)] := by
  refine ⟨rfl, by decide, by decide, by decide, ?_, by decide, update clean 100 (some ones), oneBlock_cached, ?_⟩
  · intro b hb
    have hb' : b = 100 := by simpa using hb
    subst hb'
    exact ⟨by decide, .inr (by decide)⟩
  · intro w hw
    have hw' : w = (100, ones) := by simpa using hw
    rw [hw', update_self]

/-- A transaction of one block: its log block, the header, block 100 and the header are
    written, and after every cut block 100 is all zeros or all ones. -/
theorem oneBlock_crash_atomic : IdleDisk oneBlock.log.start oneBlock.log.size oneBlock.disk ∧
    (∃ h', commit oneBlock = .done () h' ∧ (newWrites commit oneBlock).map fst = [3, 2, 100, 2] ∧ h'.disk 100 = ones) ∧
    ∀ (k : Nat) (ks : List Nat), ∃ h', recoverFromLog (reboot oneBlock
      (crashAgain oneBlock ks (applyW ((newWrites commit oneBlock).take k) oneBlock.disk))) = .done () h' ∧
    h'.disk 100 = if 2 ∈ ((newWrites commit oneBlock).take k).map fst then ones
      else zeros := by
  obtain ⟨hdone, _, hcut⟩ := commit_crash_atomic oneBlock_idle oneBlock_loaded
  have hnew : applyW [(100, ones)] oneBlock.disk 100 = ones := by
    rw [applyW_cons, applyW_nil, update_self]
  refine ⟨oneBlock_idle, ?_, fun k ks => ?_⟩
  · obtain ⟨h', hrun, hw, hhome⟩ := hdone (by decide)
    exact ⟨h', hrun, by rw [hw]; rfl, (hhome 100 (.inr (by decide))).trans hnew⟩
  obtain ⟨h', hrun, hhome⟩ := hcut k ks
  refine ⟨h', hrun, ?_⟩
  have hold : oneBlock.disk 100 = zeros := by
    show applyW _ (fun _ => zeros) 100 = zeros
    rw [applyW_of_notMem]
    rw [recoverW, map_append, logged_map_fst]
    show 100 ∉ getHead zeros ++ [2]
    decide
  have h100 := hhome 100 (.inr (by decide))
  rw [hnew, hold] at h100
  exact h100

end Xv6Crash
