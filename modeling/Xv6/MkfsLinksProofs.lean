import Xv6.MkfsDiskProofs

/-!
# The link counts that `mkfs` writes

The kernel keeps `nlink` of a directory at one for its name and one for the ".." of each directory in it
(`create`, `sys_unlink`). `mkfs` writes 1 into every inode. The counts agree exactly if no directory
of the tree has a directory in it, that is if the base directory has none: removing the only directory of a root
made by `mkfs` takes the `nlink` of the root to zero.
-/

namespace Xv6Mkfs

open ByteBuf Xv6Disk Xv6Kernel Xv6Fs Xv6Layout Xv6Own Ledger Function List Option

/-! ## Entries of the image -/

/-- The inode number in entry `k` of directory `j`. -/
def entryInum (img : Nat → Block) (j k : Nat) : Nat :=
  (getDirent fun b => bytesOf img (dino sb img) j (16 * k + b)).inum.toNat

/-- The directories in directory `j`: the entries after "." and ".." that lead to a directory. -/
def subdirs (img : Nat → Block) (j : Nat) : List Nat :=
  (range' 2 ((dino sb img j).size.toNat / 16 - 2)).filter fun k =>
    entryInum img j k ≠ 0 ∧ (dino sb img (entryInum img j k)).type = T_DIR

/-- The link counts of the kernel. -/
def LinkCounts (img : Nat → Block) : Prop :=
  ∀ j, (dino sb img j).type = T_DIR → (dino sb img j).nlink.toInt = 1 + (subdirs img j).length

section Entry

variable {img : Nat → Block} {st : St} {F : Nat → Option Made}

theorem length_direntBytes (name : Name) (ino : Nat) : (direntBytes name ino).length = 16 := by
  rw [direntBytes, length_map, length_range]

theorem getD_direntBytes (name : Name) (ino : Nat) {b : Nat} (hb : b < 16) :
    (direntBytes name ino).getD b 0 = (direntOf name ino).byte b := by
  rw [direntBytes, getD_eq_getElem?_getD, getElem?_map, getElem?_range hb]
  rfl

/-- The bytes of entry `k`. -/
theorem getD_dirBytes : ∀ (links : List (Name × Nat)) (k : Nat) {l : Name × Nat} {b : Nat},
    links[k]? = some l → b < 16 → (dirBytes links).getD (16 * k + b) 0 = (direntOf l.1 l.2).byte b := by
  intro links
  induction links with
  | nil => intro k l b hl; cases hl
  | cons l' links ih =>
    intro k l b hl hb
    rw [dirBytes_cons]
    cases k with
    | zero =>
      obtain rfl : l' = l := some.inj hl
      rw [Nat.mul_zero, zero_add, getD_append _ _ _ _ (by rw [length_direntBytes]; exact hb), getD_direntBytes _ _ hb]
    | succ k =>
      rw [getD_append_right _ _ _ _ (by rw [length_direntBytes]; omega), length_direntBytes,
        show 16 * (k + 1) + b - 16 = 16 * k + b by omega]
      exact ih k hl hb

/-- An entry that is there. -/
theorem entry_link (hf : Finished st img) {j : Nat} {t : Int16} {links : List (Name × Nat)}
    (hm : IsMade st.img (dino sb st.img) j ⟨t, dirBytes links⟩) {k : Nat} {l : Name × Nat} (hl : links[k]? = some l) :
    (getDirent fun b => bytesOf img (dino sb img) j (16 * k + b)) = direntOf l.1 l.2 := by
  have hbyte : ∀ b, b < 16 → bytesOf img (dino sb img) j (16 * k + b) = (direntOf l.1 l.2).byte b := by
    intro b hb
    rw [hf.bytes, hm.holds.bytes]
    exact getD_dirBytes links k hl hb
  rw [getDirent_congr hbyte, getDirent_byte]

/-- The inode number of an entry that is there. -/
theorem entryInum_link (hf : Finished st img) {j : Nat} {t : Int16} {links : List (Name × Nat)}
    (hm : IsMade st.img (dino sb st.img) j ⟨t, dirBytes links⟩) {k : Nat} {l : Name × Nat}
    (hl : links[k]? = some l) : entryInum img j k = l.2 % 2 ^ 16 := by
  rw [entryInum, entry_link hf hm hl]
  exact UInt16.toNat_ofNat'

/-- Past the entries that have been written there is nothing. -/
theorem entryInum_past (hf : Finished st img) {j : Nat} {t : Int16} {links : List (Name × Nat)}
    (hm : IsMade st.img (dino sb st.img) j ⟨t, dirBytes links⟩) {k : Nat} (hk : links.length ≤ k) :
    entryInum img j k = 0 := by
  have hbyte : ∀ b, b < 16 → bytesOf img (dino sb img) j (16 * k + b) = (0 : UInt8) := by
    intro b _
    rw [hf.bytes, hm.holds.bytes]
    exact getD_eq_default _ _ (by rw [length_dirBytes]; omega)
  rw [entryInum, getDirent_congr hbyte]
  rfl

theorem Good.isDir (h : Good st F) {j : Nat} : (dino sb st.img j).type = T_DIR ↔ ∃ c, F j = some ⟨T_DIR, c⟩ := by
  constructor
  · intro ht
    cases hF : F j with
    | none => exact absurd ((h.free j hF).symm.trans ht) (by decide)
    | some x =>
      obtain ⟨-, -, hm⟩ := h.made j x hF
      obtain ⟨t, c⟩ := x
      obtain rfl : T_DIR = t := ht.symm.trans hm.type
      exact ⟨c, rfl⟩
  · rintro ⟨c, hF⟩
    exact (h.made j _ hF).2.2.type

/-- An inode number fits into an entry. -/
theorem Good.inum (h : Good st F) {j : Nat} {x : Made} (hx : F j = some x) : j % 2 ^ 16 = j :=
  Nat.mod_eq_of_lt (lt_trans (h.lt hx) (lt_trans h.high (by decide)))

theorem Finished.type (h : Finished st img) (j : Nat) : (dino sb img j).type = (dino sb st.img j).type := by
  by_cases hr : j = ROOTINO
  · rw [h.table, hr, update_self]
  · rw [h.other hr]

theorem Finished.nlink (h : Finished st img) (j : Nat) : (dino sb img j).nlink = (dino sb st.img j).nlink := by
  by_cases hr : j = ROOTINO
  · rw [h.table, hr, update_self]
  · rw [h.other hr]

end Entry

/-! ## Trees without directories -/

def Host.isDir : Host → Bool
  | .dir _ _ => true
  | _ => false

/-- The host directory has a directory in it. -/
def Entries.hasDir : Entries → Bool
  | .nil => false
  | .cons name host rest => (host.isDir && host.kept name) || rest.hasDir

theorem Host.Has.isDir {host : Host} {es : Entries} (h : host.Has es) : host.isDir = true := by
  cases h <;> rfl

theorem Below.hasDir : ∀ {base es : Entries}, Below base es → base.hasDir = true
  | _, _, .here hk h => by rw [Entries.hasDir, h.isDir, hk]; rfl
  | _, _, .rest h => by rw [Entries.hasDir, h.hasDir, Bool.or_true]

/-- The root is the only directory if the base directory has none. -/
theorem build_dirs {base : Entries} {st : St} (h : build base = some st) (hno : base.hasDir = false) {j : Nat}
    (hj : (dino sb st.img j).type = T_DIR) : j = ROOTINO := by
  obtain ⟨F, -, hg, -, -, hcov⟩ := build_stored h
  obtain ⟨c, hF⟩ := hg.isDir.mp hj
  by_contra hne
  obtain ⟨-, es, -, -, hb, -⟩ := hcov j c (lt_of_le_of_ne (hg.made j _ hF).1 (Ne.symm hne)) hF
  cases hno.symm.trans hb.hasDir

section Links

variable {F : Nat → Option Made} {lo hi dirino : Nat}

/-- A directory of the host is a directory of the image. -/
theorem StoredAll.dir_link : ∀ (entries : Entries) {links : List (Name × Nat)},
    StoredAll F lo hi dirino links entries → entries.hasDir = true →
    ∃ (k : Nat) (l : Name × Nat) (c : List UInt8), links[k]? = some l ∧ F l.2 = some ⟨T_DIR, c⟩
  | .nil, _, _, hd => nomatch hd
  | .cons name host rest, _, h, hd => by
    rw [Entries.hasDir, Bool.or_eq_true_iff] at hd
    cases h with
    | skip hk hall =>
      rcases hd with hd | hd
      · rw [hk, Bool.and_false] at hd
        cases hd
      · exact StoredAll.dir_link rest hall hd
    | @cons _ ino links _ _ _ hk hs hall =>
      rcases hd with hd | hd
      · cases hs with
        | file => cases hd
        | dir _ _ hF _ => exact ⟨0, (name, ino), _, rfl, hF⟩
      · obtain ⟨k, l, c, hl, hF⟩ := StoredAll.dir_link rest hall hd
        exact ⟨k + 1, l, c, hl, hF⟩

/-- An entry leads to a directory only if the host has one there. -/
theorem StoredAll.file_link : ∀ (entries : Entries) {links : List (Name × Nat)},
    StoredAll F lo hi dirino links entries → entries.hasDir = false →
    ∀ (k : Nat) (l : Name × Nat), links[k]? = some l → ∃ c, F l.2 = some ⟨T_FILE, c⟩
  | .nil, _, h, _, k, l, hl => by
    cases h
    cases hl
  | .cons name host rest, _, h, hd, k, l, hl => by
    rw [Entries.hasDir, Bool.or_eq_false_iff] at hd
    cases h with
    | skip hk hall => exact StoredAll.file_link rest hall hd.2 k l hl
    | @cons _ ino links _ _ _ hk hs hall =>
      cases k with
      | zero =>
        obtain rfl : (name, ino) = l := some.inj hl
        cases hs with
        | file _ _ hF => exact ⟨_, hF⟩
        | dir => rw [hk] at hd; cases (show true = false from hd.1)
      | succ k => exact StoredAll.file_link rest hall hd.2 k l hl

end Links

/-! ## What a directory lists -/

/-- What an entry keeps of a name. -/
def cut (name : Name) : Fin DIRSIZ → UInt8 := (direntOf name 0).name

/-- The name in entry `k` of directory `j`. -/
def entryName (img : Nat → Block) (j k : Nat) : Fin DIRSIZ → UInt8 :=
  (getDirent fun b => bytesOf img (dino sb img) j (16 * k + b)).name

def LiveEntry (img : Nat → Block) (j k : Nat) : Prop :=
  k < (dino sb img j).size.toNat / 16 ∧ entryInum img j k ≠ 0

/-- The live entries of directory `j` are `L`. -/
structure Lists (img : Nat → Block) (j : Nat) (L : List (Name × Nat)) : Prop where
  type : (dino sb img j).type = T_DIR
  live : ∀ k, LiveEntry img j k ↔ k < L.length
  name : ∀ {k l}, L[k]? = some l → entryName img j k = cut l.1
  inum : ∀ {k l}, L[k]? = some l → entryInum img j k = l.2

section Directory

variable {img : Nat → Block} {st : St} {F : Nat → Option Made} {lo hi parent j : Nat} {base es : Entries}

theorem StoredAll.range : ∀ (entries : Entries) {links : List (Name × Nat)}, StoredAll F lo hi j links entries →
    ∀ l ∈ links, lo ≤ l.2 ∧ l.2 < hi
  | .nil, _, h, l, hl => by cases h; cases hl
  | .cons name host rest, _, h, l, hl => by
    cases h with
    | skip _ hall => exact hall.range rest l hl
    | cons _ hs hall =>
      rcases mem_cons.mp hl with rfl | hl
      · cases hs with
        | file h1 h2 _ | dir h1 h2 _ _ => exact ⟨h1, h2⟩
      · exact hall.range rest l hl

/-- **What `mkfs` lists in a directory.** -/
theorem Stored.lists (hf : Finished st img) (hg : Good st F) (hp : 1 ≤ parent ∧ parent < NINODES)
    {mtime : UInt32} (h : Stored F 1 st.freeinode parent j (.dir mtime es)) :
    ∃ links, Lists img j ((dot, j) :: (dotdot, parent) :: links) ∧ StoredAll F 1 st.freeinode j links es := by
  cases h with
  | @dir _ _ _ _ links h1 h2 hF hall =>
    obtain ⟨-, -, hm⟩ := hg.made j _ hF
    have hhigh := hg.high
    -- every entry is live
    have hinum : ∀ {k l}, ((dot, j) :: (dotdot, parent) :: links)[k]? = some l → entryInum img j k = l.2 ∧ l.2 ≠ 0 := by
      intro k l hl
      have hlt : 1 ≤ l.2 ∧ l.2 < NINODES := by
        rcases mem_cons.mp (mem_of_getElem? hl) with rfl | hl
        · exact ⟨h1, h2.trans hhigh⟩
        rcases mem_cons.mp hl with rfl | hl
        · exact hp
        · have := hall.range es l hl
          omega
      have hmax : NINODES < 2 ^ 16 := by decide
      exact ⟨(entryInum_link hf hm hl).trans (Nat.mod_eq_of_lt (by omega)), by omega⟩
    have hsize : ((dot, j) :: (dotdot, parent) :: links).length ≤ (dino sb img j).size.toNat / 16 := by
      have hlen := length_dirBytes ((dot, j) :: (dotdot, parent) :: links)
      by_cases hr : j = ROOTINO
      · subst hr
        rw [hf.rootSize hg hF]
        unfold BSIZE
        omega
      · have hms : (dino sb st.img j).size.toNat = _ := hm.size
        rw [hf.other hr, hms]
        show _ ≤ (dirBytes _).length / 16
        omega
    refine ⟨links, ⟨(hf.type j).trans hm.type, fun k => ⟨fun hk => ?_, fun hk => ?_⟩, fun hl => ?_,
      fun hl => (hinum hl).1⟩, hall⟩
    · by_contra hge
      exact hk.2 (entryInum_past hf hm (not_lt.mp hge))
    · obtain ⟨h1, h2⟩ := hinum (getElem?_eq_getElem hk)
      exact ⟨lt_of_lt_of_le hk hsize, h1 ▸ h2⟩
    · rw [entryName, entry_link hf hm hl]
      rfl

/-- The root is made of the base directory, and the other directories of those below it. -/
theorem mkfs_tree (h : mkfs base = some img) : ∃ st F, Finished st img ∧ Good st F ∧
    Stored F 1 st.freeinode ROOTINO ROOTINO (.dir 0 base) ∧ Covers F 2 st.freeinode (Below base) := by
  obtain ⟨st, hb, hfin⟩ := mkfs_finished h
  obtain ⟨F, links, hg, hroot, hall, hcov⟩ := build_stored hb
  exact ⟨st, F, hfin F hg, hg, .dir (by decide) (hg.lt hroot) hroot
    (hall.mono (fun _ _ _ => rfl) (by decide) (le_refl _)), hcov⟩

end Directory

/-! ## The link counts -/

/-- The root: its link count is 1, and a directory of the host is a directory in it. -/
theorem root_links {base : Entries} {img : Nat → Block} (h : mkfs base = some img) :
    (dino sb img ROOTINO).type = T_DIR ∧ (dino sb img ROOTINO).nlink.toInt = 1 ∧
      (base.hasDir = true → subdirs img ROOTINO ≠ []) := by
  obtain ⟨st, F, hf, hg, hs, -⟩ := mkfs_tree h
  obtain ⟨links, hL, hall⟩ := hs.lists hf hg (by decide)
  obtain ⟨_, hF⟩ := hg.isDir.mp ((hf.type _).symm.trans hL.type)
  refine ⟨hL.type, by rw [hf.nlink, (hg.made _ _ hF).2.2.nlink]; rfl, fun hd => ?_⟩
  obtain ⟨k, l, c, hl, hF⟩ := hall.dir_link base hd
  have hinum : entryInum img ROOTINO (k + 2) = l.2 := hL.inum (k := k + 2) hl
  obtain ⟨hsize, h0⟩ := (hL.live (k + 2)).mpr (Nat.add_lt_add_right (List.getElem?_eq_some_iff.mp hl).1 2)
  refine ne_nil_of_mem (a := k + 2) (mem_filter.mpr
    ⟨mem_range'_1.mpr ⟨by omega, by omega⟩, decide_eq_true ⟨h0, ?_⟩⟩)
  rw [hinum, hf.type]
  exact hg.isDir.mpr ⟨c, hF⟩

/-- Without directories in the base directory, the root has none in it. -/
theorem root_no_subdirs {base : Entries} {img : Nat → Block} (h : mkfs base = some img)
    (hd : base.hasDir = false) : subdirs img ROOTINO = [] := by
  obtain ⟨st, F, hf, hg, hs, -⟩ := mkfs_tree h
  obtain ⟨links, hL, hall⟩ := hs.lists hf hg (by decide)
  refine filter_eq_nil_iff.mpr fun k hk hc => ?_
  obtain ⟨h0, ht⟩ := of_decide_eq_true hc
  obtain ⟨h2, hsize⟩ := mem_range'_1.mp hk
  obtain ⟨m, rfl⟩ : ∃ m, k = m + 2 := ⟨k - 2, by omega⟩
  have hl := getElem?_eq_getElem (Nat.lt_of_add_lt_add_right ((hL.live (m + 2)).mp ⟨by omega, h0⟩))
  obtain ⟨c, hF⟩ := hall.file_link base hd m _ hl
  rw [hL.inum (k := m + 2) hl, hf.type, (hg.made _ _ hF).2.2.type] at ht
  exact absurd ht (show T_FILE ≠ T_DIR by decide)

/-- **The link counts that `mkfs` writes are those of the kernel exactly if** the base directory has no
    directory in it. -/
theorem link_counts_iff {base : Entries} {img : Nat → Block} (h : mkfs base = some img) :
    LinkCounts img ↔ base.hasDir = false := by
  obtain ⟨hdir, hone, hsub⟩ := root_links h
  constructor
  · intro hlinks
    by_contra hd
    have hpos := length_pos_iff.mpr (hsub (Bool.not_eq_false _ ▸ hd))
    have hcount := hlinks ROOTINO hdir
    omega
  · intro hd j hj
    obtain ⟨st, hb, hfin⟩ := mkfs_finished h
    obtain ⟨F, -, hg, -⟩ := build_stored hb
    obtain rfl : j = ROOTINO := build_dirs hb hd (((hfin F hg).type j).symm.trans hj)
    rw [hone, root_no_subdirs h hd]
    rfl

theorem link_counts_iff_file : ∃ img, mkfs (files 1) = some img ∧ LinkCounts img := by
  obtain ⟨img, h⟩ := Option.isSome_iff_exists.mp (show (mkfs (files 1)).isSome = true by decide +kernel)
  exact ⟨img, h, (link_counts_iff h).mpr (by decide)⟩

/-! ## A tree with a directory -/

/-- A base directory with one directory in it, which is empty. -/
def oneDir : Entries := .cons [100] (.dir 0 .nil) .nil

/-- **The root of an image with one directory** has a link count of 1, with a directory in it. -/
theorem one_dir_link_count : ∃ img, mkfs oneDir = some img ∧ (dino sb img ROOTINO).type = T_DIR ∧
    (dino sb img ROOTINO).nlink.toInt = 1 ∧ subdirs img ROOTINO ≠ [] ∧ ¬ LinkCounts img := by
  obtain ⟨img, h⟩ := Option.isSome_iff_exists.mp (show (mkfs oneDir).isSome = true by decide +kernel)
  obtain ⟨h1, h2, h3⟩ := root_links h
  have hsub : subdirs img ROOTINO ≠ [] := h3 (by decide)
  refine ⟨img, h, h1, h2, hsub, fun hc => ?_⟩
  have hcount := hc ROOTINO h1
  have hpos := length_pos_iff.mpr hsub
  omega

end Xv6Mkfs
