import Xv6.PathMeaningProofs

/-!
# `dirlink` — entries of a directory as a map

The live entries of a directory are a map from names to inode numbers as long as no two of them have the same name
(`IsMap`). Entries that are added under a new name and entries that are cleared keep it a map.

`dirlink` finishes exactly if there is room for what it does (`Roomy`): a slot for the inode that `dirlookup` gets
if the name is taken, or else a free entry, or space at the end of the directory and blocks for it.
-/

namespace Xv6World

open CmdProg ByteBuf Xv6Disk Xv6Kernel Xv6Fs Xv6Layout Xv6Own Xv6Inode Xv6Total Finset UInt32

/-! ## The map of a directory -/

/-- Entry `k` is there and in use. -/
def Live (x : Node) (k : Nat) : Prop := k < x.entries ∧ (x.entry k).inum ≠ 0

/-- A live entry has the name, as far as names are compared. -/
def HasEntry (x : Node) (name : List UInt8) (k : Nat) : Prop :=
  Live x k ∧ nameOf (x.entry k) = name.take DIRSIZ

/-- No two live entries have the same name. -/
def IsMap (x : Node) : Prop :=
  ∀ k m, Live x k → Live x m → nameOf (x.entry k) = nameOf (x.entry m) → k = m

section Map

variable {x : Node} {name : List UInt8} {k m : Nat} {e : Dirent}

theorem hasName_iff (h0 : 0 ∉ name) :
    x.hasName name k = true ↔ (x.entry k).inum ≠ 0 ∧ nameOf (x.entry k) = name.take DIRSIZ := by
  rw [Node.hasName, Bool.and_eq_true, decide_eq_true_eq, decide_eq_true_eq, namecmp_eq_zero h0]

/-- The search finds an entry with the name, if there is one. -/
theorem lookup_hasEntry (h0 : 0 ∉ name) (h : x.lookup name = some k) : HasEntry x name k := by
  obtain ⟨hk, hne, hcmp⟩ := lookup_some h
  exact ⟨⟨hk, hne⟩, (namecmp_eq_zero h0 _).mp hcmp⟩

theorem lookup_none_iff (h0 : 0 ∉ name) : x.lookup name = none ↔ ∀ k, ¬ HasEntry x name k := by
  rw [Node.lookup, Node.lookupFrom, List.find?_eq_none]
  constructor
  · rintro h k ⟨⟨hk, hne⟩, hname⟩
    exact h k (List.mem_range'_1.mpr ⟨Nat.zero_le _, by omega⟩) ((hasName_iff h0).mpr ⟨hne, hname⟩)
  · intro h k hk hname
    obtain ⟨hne, heq⟩ := (hasName_iff h0).mp hname
    exact h k ⟨⟨by have := List.mem_range'_1.mp hk; omega, hne⟩, heq⟩

/-- In a map the search finds the one entry with the name. -/
theorem lookup_iff (hx : IsMap x) (h0 : 0 ∉ name) : x.lookup name = some k ↔ HasEntry x name k := by
  constructor
  · exact lookup_hasEntry h0
  · intro hk
    cases hl : x.lookup name with
    | none => exact absurd hk ((lookup_none_iff h0).mp hl k)
    | some m =>
      have hm := lookup_hasEntry h0 hl
      rw [hx m k hm.1 hk.1 (hm.2.trans hk.2.symm)]

/-- Each live name is found with its own entry. -/
theorem lookup_self (hx : IsMap x) (hk : Live x k) : x.lookup (nameOf (x.entry k)) = some k := by
  have h0 : 0 ∉ nameOf (x.entry k) := zero_notMem_cstr _
  rw [lookup_iff hx h0, HasEntry, List.take_of_length_le (length_nameOf_le _)]
  exact ⟨hk, rfl⟩

/-! ## Adding and removing an entry -/

theorem live_setEntry (hk : k ≤ x.entries) : Live (x.setEntry k e) m ↔ (m = k ∧ e.inum ≠ 0) ∨ (m ≠ k ∧ Live x m) := by
  rw [Live, Live, setEntry_entries]
  by_cases hm : m = k
  · rw [hm, setEntry_entry]
    refine ⟨fun h => .inl ⟨rfl, h.2⟩, ?_⟩
    rintro (⟨-, h⟩ | ⟨hne, -⟩)
    · exact ⟨by omega, h⟩
    · exact absurd rfl hne
  · rw [setEntry_entry_ne hm]
    refine ⟨fun h => .inr ⟨hm, by omega, h.2⟩, ?_⟩
    rintro (⟨heq, -⟩ | ⟨-, h⟩)
    · exact absurd heq hm
    · exact ⟨by omega, h.2⟩

/-- An entry with a new name keeps the map. -/
theorem IsMap.insert (hx : IsMap x) (hk : k ≤ x.entries) (hnew : ∀ m, m ≠ k → Live x m → nameOf (x.entry m) ≠ nameOf e) :
    IsMap (x.setEntry k e) := by
  intro a b ha hb heq
  rw [live_setEntry hk] at ha hb
  rcases ha with ⟨rfl, -⟩ | ⟨hak, ha⟩
  · rcases hb with ⟨rfl, -⟩ | ⟨hbk, hb⟩
    · rfl
    · rw [setEntry_entry, setEntry_entry_ne hbk] at heq
      exact absurd heq.symm (hnew b hbk hb)
  · rcases hb with ⟨rfl, -⟩ | ⟨hbk, hb⟩
    · rw [setEntry_entry, setEntry_entry_ne hak] at heq
      exact absurd heq (hnew a hak ha)
    · rw [setEntry_entry_ne hak, setEntry_entry_ne hbk] at heq
      exact hx a b ha hb heq

/-- A cleared entry keeps the map. -/
theorem IsMap.erase (hx : IsMap x) (hk : k ≤ x.entries) (he : e.inum = 0) : IsMap (x.setEntry k e) := by
  intro a b ha hb heq
  rw [live_setEntry hk] at ha hb
  have hne : ∀ m, (m = k ∧ e.inum ≠ 0) ∨ (m ≠ k ∧ Live x m) → m ≠ k ∧ Live x m := by
    rintro m (⟨-, h⟩ | h)
    · exact absurd he h
    · exact h
  obtain ⟨hak, ha⟩ := hne a ha
  obtain ⟨hbk, hb⟩ := hne b hb
  rw [setEntry_entry_ne hak, setEntry_entry_ne hbk] at heq
  exact hx a b ha hb heq

/-- Clearing entry `k` takes its name out of the map, and no other. -/
theorem lookup_erase (hx : IsMap x) (hk : Live x k) (he : e.inum = 0) (h0 : 0 ∉ name) :
    (x.setEntry k e).lookup name = if name.take DIRSIZ = nameOf (x.entry k) then none else x.lookup name := by
  have hkle : k ≤ x.entries := le_of_lt hk.1
  have hy : IsMap (x.setEntry k e) := hx.erase hkle he
  have hentry : ∀ m, HasEntry (x.setEntry k e) name m ↔ m ≠ k ∧ HasEntry x name m := by
    intro m
    rw [HasEntry, HasEntry, live_setEntry hkle]
    constructor
    · rintro ⟨⟨-, h⟩ | ⟨hne, hm⟩, hname⟩
      · exact absurd he h
      · rw [setEntry_entry_ne hne] at hname
        exact ⟨hne, hm, hname⟩
    · rintro ⟨hne, hm, hname⟩
      rw [setEntry_entry_ne hne]
      exact ⟨.inr ⟨hne, hm⟩, hname⟩
  split_ifs with hn
  · rw [lookup_none_iff h0]
    intro m hm
    obtain ⟨hne, hlive, hname⟩ := (hentry m).mp hm
    exact hne (hx m k hlive hk (hname.trans hn))
  · cases hl : x.lookup name with
    | none =>
      rw [lookup_none_iff h0] at hl ⊢
      exact fun m hm => hl m ((hentry m).mp hm).2
    | some m =>
      have hm := lookup_hasEntry h0 hl
      rw [lookup_iff hy h0, hentry]
      exact ⟨fun heq => hn (by rw [← heq]; exact hm.2.symm), hm⟩

/-- The name that `dirlink` stores. -/
theorem nameOf_strncpy (h0 : 0 ∉ name) (i : UInt16) : nameOf ⟨i, strncpyName name⟩ = name.take DIRSIZ := by
  have hstr : ∀ k : Fin DIRSIZ, strncpyName name k = name.getD k.val 0 := by
    intro k
    have hcstr : name.takeWhile (· ≠ 0) = name := cstr_of_no_nul h0
    rw [strncpyName, hcstr]
  refine cstr_ofFn h0 (fun k _ => hstr k) fun k hk => ?_
  show strncpyName name k = 0
  rw [hstr, List.getD_eq_default _ _ (by omega)]

end Map

/-! ## `dirlink` -/

/-- `dirlink` is called: on the directory `d`, which is `x` and in slot `dp`, in a transaction with room for what a
    write of one entry logs. -/
structure Linking (sb : Superblock) (H : Fin NINODE → Nat) (s : LState) (dp : Fin NINODE) (d : Nat) (x : Node) :
    Prop where
  world : World sb True H s
  used : 0 < H dp
  here : At sb s dp d x
  dir : x.type = T_DIR
  whole : 16 ∣ x.size
  map : IsMap x
  log : ∀ k, k ≤ x.entries → Begun (s.lh.toFinset ∪ writeBlocks sb s.view d (16 * k) 16) s

/-- A transaction has begun and nothing is logged. -/
structure Fresh (s : LState) : Prop where
  lh : s.lh = []
  outstanding : s.outstanding = 1
  logSize : s.logSize = LOGSIZE

/-- There is room for what `dirlink` does: a slot for the inode of an entry with the name, or else a place for the
    new entry that is not past the largest file, and blocks for it. -/
def Roomy (sb : Superblock) (H : Fin NINODE → Nat) (s : LState) (d : Nat) (x : Node) (name : List UInt8) : Prop :=
  (∀ m, x.lookup name = some m → SlotFor H s (x.entry m).inum.toNat) ∧
    (x.lookup name = none → 16 * x.freeSlot + 16 ≤ MAXFILE * BSIZE ∧
      grow s.view (dino sb s.view) d [x.freeSlot / 64] ≤ (freeBlocks sb s.view).length)

section Link

variable {sb : Superblock} {H : Fin NINODE → Nat} {s s' : LState} {dp : Fin NINODE} {d inum : Nat} {x y : Node}
  {name : List UInt8} {r : Int}

section

variable (hw : World sb True H s) (hk : 0 < H dp) (hat : At sb s dp d x) (hdir : x.type = T_DIR)
  (hwhole : 16 ∣ x.size) (hmap : IsMap x)
include hw hk hat hdir hwhole hmap

/-- A short log has room for the write of an entry. -/
theorem Linking.ofLog
    (ho : 1 ≤ s.outstanding) (hlh : s.lh.Nodup) (hlen : s.lh.length ≤ 20)
    (hsize : s.logSize = LOGSIZE) : Linking sb H s dp d x := by
  refine ⟨hw, hk, hat, hdir, hwhole, hmap, fun k _ => ?_⟩
  have hcard := card_writeBlocks sb s.view d (16 * k) 16
  rw [span_entry] at hcard
  have hone : 3 * [k / 64].length + 3 = 6 := rfl
  have hlog : LOGSIZE = 30 := rfl
  have hunion := card_union_le s.lh.toFinset (writeBlocks sb s.view d (16 * k) 16)
  rw [List.toFinset_card_of_nodup hlh] at hunion
  refine ⟨ho, hlh, fun b hb => mem_union_left _ (List.mem_toFinset.mpr hb), by omega, by rw [hsize]; omega⟩

/-- A new transaction has room for the write of an entry. -/
theorem Linking.ofFresh
    (hf : Fresh s) : Linking sb H s dp d x :=
  Linking.ofLog hw hk hat hdir hwhole hmap (by rw [hf.outstanding]) (by rw [hf.lh]; exact List.nodup_nil)
    (by rw [hf.lh]; exact Nat.zero_le _) hf.logSize

end

section

variable (h : Linking sb H s dp d x)
include h

theorem Linking.inode_size : (dino sb s.view d).size.toNat = x.size := by
  rw [← h.here.din]
  exact h.here.size

/-- A directory is not larger than the largest file. -/
theorem Linking.size_le : x.size ≤ 16 * 17088 := by
  have hmax := ((h.world.disk.whole d) h.here.alloc (h.here.notDev h.dir)).1
  have hlim : MAXFILE * BSIZE = 16 * 17088 := by decide
  rw [h.inode_size] at hmax
  omega

/-- The blocks below the size are there. -/
theorem Linking.mapped {k : Nat} (hk : 1024 * (k / 64) < x.size) : grow s.view (dino sb s.view) d [k / 64] = 0 := by
  have hwhole := ((h.world.disk.whole d) h.here.alloc (h.here.notDev h.dir)).2
  have hslot := hwhole (k / 64) (by rw [h.inode_size]; show k / 64 * 1024 < x.size; omega)
  have hind : ¬ (slots s.view (dino sb s.view) (d, NDIRECT) = 0 ∧ ∃ bn ∈ [k / 64], NDIRECT ≤ bn) := by
    rintro ⟨hzero, bn, hbn, hle⟩
    obtain rfl := List.mem_singleton.mp hbn
    exact indirect_of_entry hle hslot hzero
  rw [grow, if_neg hind, List.filter_cons_of_neg (by simpa using hslot)]
  rfl

theorem dirlinkSlot_runs : ∀ r k, x.entries + 1 ≤ k + r → k ≤ x.entries →
    Runs (dirlinkSlot dp r (16 * k)) s fun _ _ => True := by
  intro r
  induction r with
  | zero => intro k hr hk; omega
  | succ r ih =>
    intro k hr hk
    refine runs_getInode ?_
    rw [h.here.size]
    split
    · have hwhole := h.whole
      refine runs_seq (readEntry_runs h.world.disk h.world.super h.here h.dir (by omega)) ?_
      rintro r1 s1 ⟨rfl, h16, hent⟩
      rw [if_neg (not_not.mpr h16), hent]
      split_ifs with h0
      · exact runs_pure trivial
      · exact ih (k + 1) (by omega) (by rw [Node.entries]; omega)
    · exact runs_pure trivial

/-- The offset of the slot, in numbers. -/
theorem slot_toNat {k : Nat} (hk : k ≤ x.entries) : (ofNat (16 * k)).toNat = 16 * k := by
  have hmax := ((h.world.disk.whole d) h.here.alloc (h.here.notDev h.dir)).1
  have hsize : (dino sb s.view d).size.toNat = x.size := by rw [← h.here.din]; exact h.here.size
  have hlim : MAXFILE * BSIZE + 16 < 2 ^ 32 := by decide
  rw [Node.entries] at hk
  rw [toNat_ofNat']
  omega

/-- The search ends at the first free entry. -/
theorem dirlinkSlot_finds : Runs (dirlinkSlot dp (x.size / 16 + 1) 0) s
    fun off s' => s' = s ∧ off = 16 * x.freeSlot := by
  refine runs_mono (runs_does (dirlinkSlot_runs h (x.size / 16 + 1) 0 (by rw [Node.entries]; omega)
    (Nat.zero_le _)) (dirlinkSlot_does (W := ∅) (N := True) h.world.disk h.here h.dir _ 0
      (by rw [Node.entries]; omega) (Nat.zero_le _))) ?_
  rintro off s' ⟨-, hs⟩
  exact hs

/-- `writei` of an entry accepts its place exactly if it is not past the largest file. -/
theorem entry_accepts {k : Nat} (hk : k ≤ x.entries) :
    Accepts (dino sb s.view d).size (ofNat (16 * k)) 16 ↔ 16 * k + 16 ≤ MAXFILE * BSIZE := by
  have hsize : (dino sb s.view d).size.toNat = x.size := by rw [← h.here.din]; exact h.here.size
  rw [accepts_iff, slot_toNat h hk, hsize]
  show (16 * k ≤ x.size ∧ 16 * k + 16 ≤ MAXFILE * BSIZE) ↔ _
  rw [Node.entries] at hk
  omega

/-- What a write of an entry does to the free blocks. -/
theorem entry_free {k : Nat} (hk : k ≤ x.entries) {e : Dirent}
    (hrun : exec (writei dp e.byte (ofNat (16 * k)) 16) s = .done 16 s') :
    freeBlocks sb s'.view = (freeBlocks sb s.view).drop (grow s.view (dino sb s.view) d [k / 64]) := by
  have hd := h.world.disk
  have hspan : span (ofNat (16 * k)).toNat (16 : UInt32).toNat = [k / 64] := by
    rw [slot_toNat h hk]
    exact span_entry
  rcases does_exec (writei_rewrites (N := True) h.world.super h.here.inum h.here.din.symm h.here.alloc
    (h.here.notDev h.dir) (fun _ => room_univ) trivial hd.layout hd.own (hd.whole d)) hrun with
    ⟨-, hr, -⟩ | ⟨-, -, d', f, -, hre⟩
  · exact absurd hr (by decide)
  · rw [← hspan]
    exact hre.free

/-- A write of an entry, when there is room for it. -/
theorem writeEntry_runs {k : Nat} (hk : k ≤ x.entries) (e : Dirent) (hmax : 16 * k + 16 ≤ MAXFILE * BSIZE)
    (hfree : grow s.view (dino sb s.view) d [k / 64] ≤ (freeBlocks sb s.view).length) :
    Runs (writei dp e.byte (ofNat (16 * k)) 16) s fun r _ => r = 16 := by
  have hoff := slot_toNat h hk
  have hspan : span (ofNat (16 * k)).toNat (16 : UInt32).toNat = [k / 64] := by
    rw [hoff]
    exact span_entry
  have hd := h.world.disk
  have hroom : Room ↑(s.lh.toFinset ∪ writeBlocks sb s.view d (16 * k) 16) sb s.view (dino sb s.view) d
      (span (ofNat (16 * k)).toNat (16 : UInt32).toNat) := by
    refine Room.of_writeBlocks ?_
    rw [hoff]
    exact subset_union_right
  obtain ⟨r, s', hrun⟩ := writei_finishes e.byte hd.layout hd.own h.world.super h.here.inum h.here.din.symm
    h.here.alloc (h.here.notDev h.dir) fun _ => ⟨h.log k hk, hroom, by rw [hspan]; exact hfree⟩
  refine ⟨r, s', hrun, ?_⟩
  rcases does_exec (writei_rewrites (N := True) h.world.super h.here.inum h.here.din.symm h.here.alloc
    (h.here.notDev h.dir) (fun _ => room_univ) trivial hd.layout hd.own (hd.whole d)) hrun with ⟨hno, -⟩ | ⟨-, rfl, -⟩
  · exact absurd ((entry_accepts h hk).mpr hmax) hno
  · rfl

/-- A write of an entry that gets through has found room. -/
theorem writeEntry_room {k : Nat} (hk : k ≤ x.entries) {e : Dirent}
    (hrun : exec (writei dp e.byte (ofNat (16 * k)) 16) s = .done 16 s') :
    16 * k + 16 ≤ MAXFILE * BSIZE ∧ grow s.view (dino sb s.view) d [k / 64] ≤ (freeBlocks sb s.view).length ∧
      freeBlocks sb s'.view = (freeBlocks sb s.view).drop (grow s.view (dino sb s.view) d [k / 64]) := by
  have hoff := slot_toNat h hk
  have hacc := entry_accepts h hk
  have hfree := entry_free h hk hrun
  have hdev := h.here.notDev h.dir
  rw [writei, exec_getInode, h.here.din, if_neg hdev] at hrun
  split at hrun
  · exact absurd (exec_pure_done.mp hrun).1 (by decide)
  · next hbad =>
    split_ifs at hrun with hbig
    · exact absurd (exec_pure_done.mp hrun).1 (by decide)
    · refine ⟨hacc.mp ⟨hbad, not_lt.mp hbig⟩, ?_, hfree⟩
      obtain ⟨_, s1, hloop, -⟩ := exec_bind_done.mp hrun
      obtain ⟨D', hw⟩ := does_exec (writeiLoop_does (N := True) h.world.disk.layout e.byte (16 : UInt32).toNat 0
        (ofNat (16 * k)).toNat s (dino sb s.view) (le_refl _) h.world.super h.world.disk.own
        h.here.din.symm h.here.alloc room_univ) hloop
      have hspan : span (ofNat (16 * k)).toNat ((16 : UInt32).toNat - 0) = [k / 64] := by
        rw [hoff]
        exact span_entry
      rw [← hspan]
      exact hw.room

end

/-- **`dirlink` finishes** when there is room. -/
theorem dirlink_runs (inum : Nat) (h : Linking sb H s dp d x) (hroom : Roomy sb H s d x name) :
    Runs (dirlink dp name inum) s fun _ _ => True := by
  refine runs_seq (dirlookup_runs h.world h.used h.here h.dir h.whole hroom.1) ?_
  rintro (_ | y) s1 ⟨hfound, -⟩
  · obtain ⟨rfl, hnone⟩ := hfound
    obtain ⟨hmax, hfree⟩ := hroom.2 hnone
    refine runs_getInode ?_
    rw [h.here.size]
    refine runs_seq (dirlinkSlot_finds h) ?_
    rintro off s2 ⟨rfl, rfl⟩
    refine runs_seq (writeEntry_runs h freeSlot_le _ hmax hfree) ?_
    rintro r s3 rfl
    exact runs_pure trivial
  · obtain ⟨m, -, -, -, hw1, hs1, -⟩ := hfound
    have hheld : Held sb (drop (bump H y.1) y.1) s1 := by
      rw [drop_bump]
      exact h.world.held.frame hs1.toFrame hs1.view fun _ hl => hl
    exact runs_seq (iput_runs hw1 bump_pos hheld) fun _ _ _ => runs_pure trivial

/-- **`dirlink` panics** when the new entry does not fit into the largest file: `writei` refuses it. -/
theorem dirlink_panics (inum : Nat) (h : Linking sb H s dp d x) (hnone : x.lookup name = none)
    (hmax : ¬ 16 * x.freeSlot + 16 ≤ MAXFILE * BSIZE) : exec (dirlink dp name inum) s = .stop (.panic "dirlink") s := by
  have hd := h.world.disk
  have hacc : ¬ Accepts (dino sb s.view d).size (ofNat (16 * x.freeSlot)) 16 :=
    fun hacc => hmax ((entry_accepts h freeSlot_le).mp hacc)
  obtain ⟨o, s1, hlook, hfound, -⟩ := dirlookup_runs h.world h.used h.here h.dir h.whole
    fun m hm => (nomatch hnone.symm.trans hm)
  cases o with
  | some z =>
    obtain ⟨m, hm, -⟩ := hfound
    cases hnone.symm.trans hm
  | none =>
    obtain ⟨rfl, -⟩ := hfound
    obtain ⟨_, _, hslot, rfl, rfl⟩ := dirlinkSlot_finds h
    generalize he : (⟨UInt16.ofNat inum, strncpyName name⟩ : Dirent) = e
    obtain ⟨r, s2, hwrite⟩ := writei_finishes (V := ∅) e.byte hd.layout hd.own h.world.super h.here.inum
      h.here.din.symm h.here.alloc (h.here.notDev h.dir) fun h' => absurd h' hacc
    rcases does_exec (writei_rewrites (N := True) h.world.super h.here.inum h.here.din.symm h.here.alloc
      (h.here.notDev h.dir) (fun _ => room_univ) trivial hd.layout hd.own (hd.whole d)) hwrite with ⟨-, rfl, rfl⟩ | ⟨h', -⟩
    · rw [dirlink, exec, run_bind_of_done hlook]
      show exec (dirlinkStore dp name inum) s2 = _
      rw [dirlinkStore, exec_getInode, h.here.size, exec, run_bind_of_done hslot, he, run_bind_of_done hwrite]
      rfl
    · exact absurd h' hacc

/-- What `dirlink` has done when it returns. -/
def Linked (sb : Superblock) (H : Fin NINODE → Nat) (s : LState) (dp : Fin NINODE) (d : Nat) (x : Node)
    (name : List UInt8) (inum : Nat) (r : Int) (s' : LState) : Prop :=
  (∃ m, x.lookup name = some m ∧ SlotFor H s (x.entry m).inum.toNat ∧ r = -1 ∧ World sb True H s' ∧ Still H s s') ∨
    (x.lookup name = none ∧ 16 * x.freeSlot + 16 ≤ MAXFILE * BSIZE ∧
      grow s.view (dino sb s.view) d [x.freeSlot / 64] ≤ (freeBlocks sb s.view).length ∧ r = 0 ∧
      freeBlocks sb s'.view = (freeBlocks sb s.view).drop (grow s.view (dino sb s.view) d [x.freeSlot / 64]) ∧
      Changes sb s dp d (some (x.setEntry x.freeSlot ⟨UInt16.ofNat inum, strncpyName name⟩)) s')

theorem dirlink_linked (h : Linking sb H s dp d x) (hrun : exec (dirlink dp name inum) s = .done r s') :
    Linked sb H s dp d x name inum r s' := by
  obtain ⟨o, s1, hlook, hrest⟩ := exec_bind_done.mp hrun
  have hfound := does_exec (dirlookup_does (W := ∅) h.world.disk h.world.cache h.used h.here
    (h.world.dirs d x h.here.node) fun hN => absurd trivial hN) hlook
  cases o with
  | none =>
    right
    obtain ⟨-, rfl, hnone⟩ := hfound
    have hstore : exec (dirlinkStore dp name inum) s1 = .done r s' := hrest
    rw [dirlinkStore, exec_getInode, h.here.size] at hstore
    obtain ⟨off, s2, hslot, hstore⟩ := exec_bind_done.mp hstore
    obtain ⟨rfl, rfl⟩ := does_exec (dirlinkSlot_does (W := ∅) (N := True) h.world.disk h.here h.dir _ 0
      (by rw [Node.entries]; omega) (Nat.zero_le _)) hslot
    obtain ⟨w, s3, hwrite, hlast⟩ := exec_bind_done.mp hstore
    split_ifs at hlast with h16
    · exact (exec_kpanic_done.mp hlast).elim
    · obtain ⟨rfl, rfl⟩ := exec_pure_done.mp hlast
      obtain rfl := not_not.mp h16
      obtain ⟨hmax, hfree, hdrop⟩ := writeEntry_room h freeSlot_le hwrite
      have hc := does_exec (writeEntry_does (N := True) h.world.disk h.world.super h.here h.dir freeSlot_le room_univ
        trivial) hwrite
      exact ⟨hnone, hmax, hfree, rfl, hdrop, hc rfl⟩
  | some z =>
    left
    obtain ⟨-, m, hm, -, hgot⟩ := hfound
    obtain ⟨hw1, hs1, hinum⟩ := h.world.got hgot
    obtain ⟨_, s2, hput, hlast⟩ := exec_bind_done.mp hrest
    obtain ⟨rfl, rfl⟩ := exec_pure_done.mp hlast
    have hheld : Held sb (drop (bump H z.1) z.1) s1 := by
      rw [drop_bump]
      exact h.world.held.frame hs1.toFrame hs1.view fun _ hl => hl
    obtain ⟨hw2, hs2⟩ := does_exec (iput_quiet (W := ∅) hw1 bump_pos hheld) hput
    rw [drop_bump] at hw2 hs2
    refine ⟨m, hm, ?_, rfl, hw2, hs1.trans hs2⟩
    by_cases hz : 0 < H z.1
    · exact .inl ⟨z.1, hz, by rw [← hgot.keep.inum hz, hinum]⟩
    · exact .inr ⟨z.1, by omega⟩

end Link

end Xv6World
