import Mathlib.Data.Fintype.Pi
import Xv6.MkfsLinksProofs

/-!
# The names in the directories of an image

`dappend` copies the first `DIRSIZ` bytes of a name into an entry and does not look whether the directory has
that name already. The names of an image are unique exactly if the names of each directory of the host are
different in those bytes. Then the path of a file of the host leads to it, since the first entry with a name, the
one `dirlookup` takes, is the only one.
-/

namespace Xv6Mkfs

open ByteBuf Xv6Disk Xv6Kernel Xv6Fs Xv6Layout Xv6Own Ledger Function List

/-! ## Names and paths -/

/-- The names that `add_directory` enters for a directory of the host. -/
def Entries.cuts : Entries → List (Fin DIRSIZ → UInt8)
  | .nil => []
  | .cons name host rest => if host.kept name = true then cut name :: rest.cuts else rest.cuts

/-- In no directory of the host do two names agree in the first `DIRSIZ` bytes. -/
def DistinctCuts (base : Entries) : Prop :=
  ∀ es, (Host.dir 0 base).Has es → (cut dot :: cut dotdot :: es.cuts).Nodup

/-- No directory has two live entries of one name. -/
def UniqueNames (img : Nat → Block) : Prop :=
  ∀ j, (dino sb img j).type = T_DIR → ∀ k k', LiveEntry img j k → LiveEntry img j k' →
    entryName img j k = entryName img j k' → k = k'

/-- The inode to which a path leads, by the first live entry of each name. -/
inductive Leads (img : Nat → Block) : Nat → List Name → Nat → Prop where
  | nil {j : Nat} : Leads img j [] j
  | cons {j k i : Nat} {name : Name} {path : List Name} (ht : (dino sb img j).type = T_DIR)
      (hl : LiveEntry img j k) (hn : entryName img j k = cut name)
      (hfirst : ∀ k', k' < k → LiveEntry img j k' → entryName img j k' ≠ cut name)
      (h : Leads img (entryInum img j k) path i) : Leads img j (name :: path) i

/-- A file of the host, with its path. -/
inductive HostFile : Entries → List Name → List UInt8 → Prop where
  | here {name : Name} {mtime : UInt32} {bytes : List UInt8} {rest : Entries}
      (hk : (Host.file mtime bytes).kept name = true) : HostFile (.cons name (.file mtime bytes) rest) [name] bytes
  | inside {name : Name} {mtime : UInt32} {es rest : Entries} {path : List Name} {bytes : List UInt8}
      (hk : (Host.dir mtime es).kept name = true) (h : HostFile es path bytes) :
      HostFile (.cons name (.dir mtime es) rest) (name :: path) bytes
  | rest {name : Name} {host : Host} {rest : Entries} {path : List Name} {bytes : List UInt8}
      (h : HostFile rest path bytes) : HostFile (.cons name host rest) path bytes

/-- The path leads to a file with these bytes. -/
def Finds (img : Nat → Block) (j : Nat) (path : List Name) (bytes : List UInt8) : Prop :=
  ∃ i, Leads img j path i ∧ (dino sb img i).type = T_FILE ∧ (dino sb img i).size.toNat = bytes.length ∧
    ∀ p, bytesOf img (dino sb img) i p = bytes.getD p 0

/-! ## The directories of an image -/

section Directory

variable {img : Nat → Block} {st : St} {F : Nat → Option Made} {lo hi parent j : Nat} {links : List (Name × Nat)}
  {entries es : Entries} {host : Host}

theorem Lists.nodup {L : List (Name × Nat)} (h : Lists img j L) :
    (∀ k k', LiveEntry img j k → LiveEntry img j k' → entryName img j k = entryName img j k' → k = k') ↔
      (L.map fun l => cut l.1).Nodup := by
  have hname : ∀ (k : Nat) (hk : k < (L.map fun l => cut l.1).length),
      (L.map fun l => cut l.1)[k] = entryName img j k := by
    intro k hk
    rw [getElem_map]
    exact (h.name (getElem?_eq_getElem (by rwa [length_map] at hk))).symm
  simp only [h.live]
  refine ⟨fun hu => pairwise_iff_getElem.mpr fun k k' hk hk' hlt heq => ?_, fun hn k k' hk hk' heq => ?_⟩
  · rw [hname, hname] at heq
    rw [length_map] at hk hk'
    exact absurd (hu k k' hk hk' heq) (ne_of_lt hlt)
  · rw [← length_map (fun l : Name × Nat => cut l.1)] at hk hk'
    rw [← hname k hk, ← hname k' hk'] at heq
    exact (hn.getElem_inj_iff).mp heq

theorem StoredAll.cuts : ∀ (entries : Entries) {links : List (Name × Nat)}, StoredAll F lo hi j links entries →
    (links.map fun l => cut l.1) = entries.cuts
  | .nil, _, h => by cases h; rfl
  | .cons name host rest, _, h => by
    cases h with
    | skip hk hall => rw [Entries.cuts, if_neg (by rw [hk]; decide), hall.cuts rest]
    | cons hk _ hall => rw [Entries.cuts, if_pos hk, map_cons, hall.cuts rest]

mutual

/-- Every directory of the host is in the image. -/
theorem Stored.has (hhi : hi < NINODES) : ∀ {parent j : Nat} {host : Host} {es : Entries},
    1 ≤ parent ∧ parent < NINODES → Stored F 1 hi parent j host → host.Has es → ∃ j, DirOf F 1 hi (· = es) j
  | _, _, _, _, hp, .dir h1 h2 hF hall, .self => ⟨_, _, _, hp.1, hp.2, rfl, .dir h1 h2 hF hall⟩
  | _, _, _, _, _, .dir h1 h2 _ hall, .inside hb => StoredAll.has hhi ⟨h1, h2.trans hhi⟩ hall hb

theorem StoredAll.has (hhi : hi < NINODES) : ∀ {j : Nat} {links : List (Name × Nat)} {entries es : Entries},
    1 ≤ j ∧ j < NINODES → StoredAll F 1 hi j links entries → Below entries es → ∃ j, DirOf F 1 hi (· = es) j
  | _, _, _, _, _, .skip hk _, .here hk' _ => nomatch hk.symm.trans hk'
  | _, _, _, _, hp, .skip _ hall, .rest hb => StoredAll.has hhi hp hall hb
  | _, _, _, _, hp, .cons _ hs _, .here _ hes => Stored.has hhi hp hs hes
  | _, _, _, _, hp, .cons _ _ hall, .rest hb => StoredAll.has hhi hp hall hb

end

/-- The entry after `A` is the first one of its name. -/
theorem Lists.step (hu : UniqueNames img) {ino : Nat} {A : List (Name × Nat)} {name : Name} {path : List Name}
    {bytes : List UInt8} (h : Lists img j (A ++ (name, ino) :: links)) (hfind : Finds img ino path bytes) :
    Finds img j (name :: path) bytes := by
  obtain ⟨i, hleads, hfile⟩ := hfind
  have hat : (A ++ (name, ino) :: links)[A.length]? = some (name, ino) := by simp
  have hlive := (h.live A.length).mpr (by simp)
  refine ⟨i, .cons h.type hlive (h.name hat) (fun k' hlt hl heq => ?_) ((h.inum hat).symm ▸ hleads), hfile⟩
  exact absurd (hu j h.type k' _ hl hlive (heq.trans (h.name hat).symm)) (ne_of_lt hlt)

/-- **A path of the host leads to its file**, if the names are unique. -/
theorem HostFile.finds (hu : UniqueNames img) (hf : Finished st img) (hg : Good st F)
    (hroot : (dino sb img ROOTINO).type = T_DIR) {path : List Name} {bytes : List UInt8}
    (h : HostFile entries path bytes) : ∀ {j : Nat} {A links : List (Name × Nat)}, 1 ≤ j ∧ j < NINODES →
    Lists img j (A ++ links) → StoredAll F 1 st.freeinode j links entries → Finds img j path bytes := by
  induction h with
  | @here name mtime bytes rest hk =>
    intro j A links _ hL hall
    cases hall with
    | skip hk' _ => cases hk.symm.trans hk'
    | @cons _ ino _ _ _ _ _ hs _ =>
      cases hs with
      | file h1 h2 hF =>
        obtain ⟨-, -, hm⟩ := hg.made ino _ hF
        have htype := (hf.type ino).trans hm.type
        have hne : ino ≠ ROOTINO := by
          rintro rfl
          exact absurd (htype.symm.trans hroot) (show T_FILE ≠ T_DIR by decide)
        refine hL.step hu ⟨ino, .nil, htype, ?_, fun p => ?_⟩
        · rw [hf.other hne]
          exact hm.size
        · rw [hf.bytes]
          exact hm.holds.bytes p
  | inside hk _ ih =>
    intro j A links hj hL hall
    cases hall with
    | skip hk' _ => cases hk.symm.trans hk'
    | cons _ hs _ =>
      obtain ⟨links', hL', hall'⟩ := hs.lists hf hg hj
      cases hs with
      | dir h1 h2 _ _ => exact hL.step hu (ih ⟨h1, h2.trans hg.high⟩ (A := [_, _]) hL' hall')
  | @rest name host rest path bytes _ ih =>
    intro j A links hj hL hall
    cases hall with
    | skip _ hall => exact ih hj hL hall
    | cons _ _ hall => exact ih hj (by rwa [append_cons] at hL) hall

end Directory

/-! ## The image -/

section Image

variable {base : Entries} {img : Nat → Block}

theorem names_cut (h : mkfs base = some img) : UniqueNames img ↔ DistinctCuts base := by
  obtain ⟨st, F, hf, hg, hstored, hcov⟩ := mkfs_tree h
  have hvalid : 1 ≤ ROOTINO ∧ ROOTINO < NINODES := by decide
  constructor
  · intro hu es hes
    obtain ⟨j, parent, _, hp1, hp2, rfl, hs⟩ := Stored.has hg.high hvalid hstored hes
    obtain ⟨links, hL, hall⟩ := hs.lists hf hg ⟨hp1, hp2⟩
    rw [← hall.cuts]
    exact hL.nodup.mp (hu j hL.type)
  · intro hd j hj
    obtain ⟨c, hF⟩ := hg.isDir.mp ((hf.type j).symm.trans hj)
    have hdir : DirOf F 1 st.freeinode (Host.dir 0 base).Has j := by
      by_cases hr : j = ROOTINO
      · exact ⟨ROOTINO, base, hvalid.1, hvalid.2, .self, hr ▸ hstored⟩
      · exact (hcov j c (lt_of_le_of_ne (hg.made j _ hF).1 (Ne.symm hr)) hF).mono (fun _ => .inside)
          (fun _ _ _ => rfl) (by decide) (le_refl _)
    obtain ⟨parent, es, hp1, hp2, hes, hs⟩ := hdir
    obtain ⟨links, hL, hall⟩ := hs.lists hf hg ⟨hp1, hp2⟩
    refine hL.nodup.mpr ?_
    have hcuts := hd es hes
    rw [← hall.cuts] at hcuts
    exact hcuts

/-- **The names of an image are unique, and every file of the host is reached by its path, exactly if** in no
    directory of the host two names agree in the first `DIRSIZ` bytes. -/
theorem unique_names_iff (h : mkfs base = some img) :
    (UniqueNames img ∧ ∀ path bytes, HostFile base path bytes → Finds img ROOTINO path bytes) ↔ DistinctCuts base := by
  refine ⟨fun hu => (names_cut h).mp hu.1, fun hd => ?_⟩
  have hu := (names_cut h).mpr hd
  obtain ⟨st, F, hf, hg, hs, -⟩ := mkfs_tree h
  obtain ⟨links, hL, hall⟩ := hs.lists hf hg (by decide)
  refine ⟨hu, fun path bytes hfile => ?_⟩
  exact hfile.finds hu hf hg hL.type (by decide) (A := [_, _]) hL hall

end Image

theorem unique_names_file : ∃ img, mkfs (files 1) = some img ∧ UniqueNames img ∧
    Finds img ROOTINO [[97, 97, 97]] [] := by
  obtain ⟨img, h⟩ := Option.isSome_iff_exists.mp (show (mkfs (files 1)).isSome = true by decide +kernel)
  have hd : DistinctCuts (files 1) := by
    intro es hes
    cases hes with
    | self => decide +kernel
    | inside hb => cases hb.hasDir
  obtain ⟨hu, hfind⟩ := (unique_names_iff h).mpr hd
  exact ⟨img, h, hu, hfind _ _ (.here rfl)⟩

/-- Two names of 15 bytes that differ in the last one. -/
def twins : Entries :=
  .cons (replicate 14 97 ++ [97]) (.file 0 []) (.cons (replicate 14 97 ++ [98]) (.file 0 []) .nil)

/-- **`mkfs` enters two names of 15 bytes as the same name.** -/
theorem twins_not_unique : ∃ img, mkfs twins = some img ∧ ¬ UniqueNames img := by
  obtain ⟨img, h⟩ := Option.isSome_iff_exists.mp (show (mkfs twins).isSome = true by decide +kernel)
  refine ⟨img, h, fun hu => ?_⟩
  exact absurd ((names_cut h).mp hu twins .self) (by decide +kernel)

end Xv6Mkfs
