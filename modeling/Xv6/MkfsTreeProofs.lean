import Xv6.MkfsImageProofs
import Xv6.NodeTableProofs

/-!
# The files and directories of an image under construction

Above the blocks of an image there is a table of what has been made: for each inode its type and its
bytes (`Good`). `ialloc` makes an empty one and `iappend` appends to one, and nothing else changes.

What `mkfs` makes of a directory of the host is then a statement about that table (`Stored`): the bytes of
a directory are its entries, in order, with the inodes that hold what the host has under these names.
-/

namespace Xv6Mkfs

open ByteBuf Xv6Disk Xv6Fs Xv6Layout Xv6Own Ledger Function List Option

/-- What has been made of an inode. -/
structure Made where
  type : Int16
  content : List UInt8

/-- Inode `j` of the image is `x`. -/
structure IsMade (img : Nat → Block) (D : Nat → Dinode) (j : Nat) (x : Made) : Prop where
  kind : x.type = T_DIR ∨ x.type = T_FILE
  type : (D j).type = x.type
  nlink : (D j).nlink = 1
  size : (D j).size.toNat = x.content.length
  holds : Holds img D j x.content

theorem kind_alloc {t : Int16} (h : t = T_DIR ∨ t = T_FILE) : t ≠ 0 ∧ t ≠ T_DEV := by
  rcases h with rfl | rfl <;> decide

/-- The image holds exactly the files of `F`. -/
structure Good (st : St) (F : Nat → Option Made) : Prop where
  image : Image st.img (dino sb st.img) st.freeblock
  super : st.img 1 = superblock
  bits : st.img (sb.bmapstart + 1) = zeros
  low : 1 ≤ st.freeinode
  high : st.freeinode < NINODES
  made : ∀ j x, F j = some x → 1 ≤ j ∧ j < st.freeinode ∧ IsMade st.img (dino sb st.img) j x
  free : ∀ j, F j = none → (dino sb st.img j).type = 0

/-! ## Inodes -/

section Inodes

variable {st st' : St} {F : Nat → Option Made} {i j : Nat} {d : Dinode} {x : Made} {p : List UInt8}

theorem iblock_range {j : Nat} (hj : j < NINODES) :
    IBLOCK j sb < sb.bmapstart ∧ 2 ≤ IBLOCK j sb ∧ IBLOCK j sb < FSSIZE := by
  have h1 : IBLOCK j sb < sb.bmapstart := iblock_lt layout hj
  have h2 : sb.inodestart ≤ IBLOCK j sb := inodestart_le_iblock j
  have h3 : 2 ≤ sb.inodestart := two_le_inodestart layout
  have h4 : sb.bmapstart < FSSIZE := by decide
  omega

theorem rinode_some (h1 : 1 ≤ i) (h2 : i < NINODES) : rinode st i = some (dino sb st.img i) := by
  rw [rinode, rsect, if_pos (iblock_range h2).2.2, map_some, dino_of_range h1 h2]

theorem winode_some (h2 : i < NINODES) : winode st i d = some { st with img := updateView sb st.img i d } := by
  rw [winode, rsect, if_pos (iblock_range h2).2.2]
  rfl

theorem dino_updateView (img : Nat → Block) (d : Dinode) (h1 : 1 ≤ i) (h2 : i < NINODES) :
    dino sb (updateView sb img i d) = update (dino sb img) i d :=
  dino_putDinode h1 h2 d

/-- The inode blocks are none of the others. -/
theorem updateView_keeps (img : Nat → Block) (d : Dinode) (h2 : i < NINODES) :
    updateView sb img i d 1 = img 1 ∧ updateView sb img i d (sb.bmapstart + 1) = img (sb.bmapstart + 1) ∧
      ∀ b, nmeta ≤ b → updateView sb img i d b = img b := by
  have h := iblock_range h2
  have hm : sb.bmapstart < nmeta := by decide
  exact ⟨updateView_other (by omega), updateView_other (by omega), fun b hb => updateView_other (by omega)⟩

/-- Blocks in use are data blocks. -/
theorem Image.slot_data {img : Nat → Block} {D : Nat → Dinode} {fb : Nat} (h : Image img D fb) {x : Nat × Nat}
    (hx : slots img D x ≠ 0) : nmeta ≤ slots img D x :=
  (h.ledger.cell x hx).1

/-- The inode goes to the image; the slots stay as they are. -/
theorem image_updateView {img : Nat → Block} {D : Nat → Dinode} {fb : Nat} (h : Image img D fb) (h2 : i < NINODES)
    {D' : Nat → Dinode} (hs : slots img D' = slots img D) :
    Image (updateView sb img i d) D' fb ∧ slots (updateView sb img i d) D' = slots img D ∧
      ∀ j, bytesOf (updateView sb img i d) D' j = bytesOf img D j := by
  have hkeep := (updateView_keeps img d h2).2.2
  have hslots : slots (updateView sb img i d) D' = slots img D := by
    rw [← hs]
    refine slots_congr (fun _ => ⟨rfl, rfl⟩) fun j hj => ?_
    rw [hs] at hj ⊢
    exact hkeep _ (h.slot_data hj)
  refine ⟨⟨hslots ▸ h.ledger, h.low, h.high, fun b hb => ?_⟩, hslots, fun j => ?_⟩
  · rw [hkeep b (le_trans h.low hb)]
    exact h.fresh b hb
  · exact bytesOf_congr fun bn => .inl ⟨by rw [hslots], fun hx => hkeep _ (h.slot_data hx)⟩

/-- **`ialloc`** makes an empty inode. -/
theorem ialloc_good (h : Good st F) {type : Int16} {mtime : UInt32} {ino : Nat} (ht : type = T_DIR ∨ type = T_FILE)
    (hr : ialloc st type mtime = some (ino, st')) :
    ino = st.freeinode ∧ F ino = none ∧ st'.freeinode = st.freeinode + 1 ∧
      Good st' (update F ino (some ⟨type, []⟩)) := by
  unfold ialloc at hr
  split_ifs at hr with hlt
  rw [winode_some (Nat.lt_of_succ_lt hlt), map_some] at hr
  obtain ⟨rfl, rfl⟩ := Prod.mk.inj (some.inj hr)
  have hF : F st.freeinode = none := by
    cases hF : F st.freeinode with
    | none => rfl
    | some x => exact absurd (h.made _ x hF).2.1 (lt_irrefl _)
  have h2 : st.freeinode < NINODES := h.high
  let d : Dinode := { Dinode.zero with type := type, nlink := 1, mtime := mtime }
  have hkeep := updateView_keeps st.img d h2
  have hdino := dino_updateView st.img d h.low h2
  -- neither the old nor the new inode has blocks
  have hs : slots st.img (update (dino sb st.img) st.freeinode d) = slots st.img (dino sb st.img) := by
    funext ⟨j, k⟩
    by_cases hj : j = st.freeinode
    · subst hj
      rw [slots, slots, if_pos (h.free _ hF), update_self, if_neg (kind_alloc ht).1]
      exact slots_empty rfl k
    · rw [slots, slots, update_of_ne hj]
  obtain ⟨himage, hslots, hbytes⟩ := image_updateView (i := st.freeinode) (d := d) h.image h2 hs
  refine ⟨rfl, hF, rfl, ?_, hkeep.1.trans h.super, hkeep.2.1.trans h.bits, ?_, hlt, fun j x hx => ?_, fun j hj => ?_⟩
  · rw [hdino]
    exact himage
  · show 1 ≤ st.freeinode + 1
    omega
  · show 1 ≤ j ∧ j < st.freeinode + 1 ∧ IsMade (updateView _ _ _ _) (dino sb (updateView _ _ _ _)) j x
    rw [hdino]
    rw [update_apply] at hx
    split_ifs at hx with hj
    · subst hj
      cases hx
      have hnone : ∀ k, slots (updateView sb st.img st.freeinode d) (update (dino sb st.img) st.freeinode d)
          (st.freeinode, k) = 0 := by
        intro k
        rw [hslots, slots, if_pos (h.free _ hF)]
      refine ⟨h.low, Nat.lt_succ_self _, ht, ?_, ?_, ?_, Nat.zero_le _, fun q => ?_, fun bn => ?_, ?_⟩
      · rw [update_self]
      · rw [update_self]
      · rw [update_self]; rfl
      · rw [bytesOf, if_pos (hnone _)]; rfl
      · rw [hnone]; exact ⟨fun hc => absurd rfl hc, fun hc => absurd hc (Nat.not_lt_zero _)⟩
      · rw [hnone]; exact ⟨fun hc => absurd rfl hc, fun hc => absurd hc (Nat.not_lt_zero _)⟩
    · obtain ⟨h1, h3, hm⟩ := h.made j x hx
      have hsame : Same j st.img (dino sb st.img) (updateView sb st.img st.freeinode d)
          (update (dino sb st.img) st.freeinode d) := ⟨fun k => by rw [hslots], hbytes j⟩
      refine ⟨h1, Nat.lt_succ_of_lt h3, hm.kind, ?_, ?_, ?_, hsame.holds hm.holds⟩
      · rw [update_of_ne hj]; exact hm.type
      · rw [update_of_ne hj]; exact hm.nlink
      · rw [update_of_ne hj]; exact hm.size
  · rw [hdino]
    by_cases hj' : j = st.freeinode
    · rw [hj', update_self] at hj; cases hj
    · rw [update_of_ne hj'] at hj ⊢
      exact h.free j hj

/-- **`iappend`** appends to what has been made of its inode. -/
theorem iappend_good (h : Good st F) (hx : F i = some x) (hr : iappend st i p = some st') :
    st'.freeinode = st.freeinode ∧ Good st' (update F i (some { x with content := x.content ++ p })) := by
  obtain ⟨h1, h3, hm⟩ := h.made i x hx
  have h2 : i < NINODES := lt_trans h3 h.high
  unfold iappend at hr
  rw [rinode_some h1 h2, bind_some, hm.size] at hr
  obtain ⟨⟨st1, din, off⟩, hloop, hr⟩ := bind_eq_some_iff.mp hr
  have hi : (dino sb st.img i).type ≠ 0 := by rw [hm.type]; exact (kind_alloc hm.kind).1
  obtain ⟨ha, rfl, hin⟩ := iappendLoop_appended _ h.image hi hm.holds (le_refl _) hloop
  split_ifs at hr
  rw [winode_some h2] at hr
  cases hr
  generalize hd : ({ din with size := UInt32.ofNat (x.content ++ p).length } : Dinode) = d
  have hkeep := updateView_keeps st1.img d h2
  have hmeta : nmeta = sb.bmapstart + 2 := by decide
  -- the table on the image has not changed in the loop
  have htable : dino sb st1.img = dino sb st.img := by
    refine dino_congr fun j hj => ha.below _ ?_
    have := (iblock_range hj).1
    omega
  have hdino : dino sb (updateView sb st1.img i d) = update (dino sb st.img) i d := by
    rw [dino_updateView _ _ h1 h2, htable]
  have hs : slots st1.img (update (dino sb st.img) i d) = slots st1.img (update (dino sb st.img) i din) := by
    refine slots_congr (fun j => ?_) fun _ _ => rfl
    by_cases hj : j = i
    · rw [hj, update_self, update_self, ← hd]; exact ⟨rfl, rfl⟩
    · rw [update_of_ne hj, update_of_ne hj]; exact ⟨rfl, rfl⟩
  obtain ⟨himage, hslots, hbytes⟩ := image_updateView (i := i) (d := d) ha.image h2 hs
  have hdin : din.type = (dino sb st.img i).type ∧ din.nlink = (dino sb st.img i).nlink := by
    obtain ⟨a, htab⟩ := ha.table
    have := congrFun htab i
    rw [update_self, update_self] at this
    rw [this]
    exact ⟨rfl, rfl⟩
  have hto : (UInt32.ofNat (x.content ++ p).length).toNat = (x.content ++ p).length := by
    have hmax := ha.holds.max
    have hsmall : MAXFILE * BSIZE < 2 ^ 32 := by decide
    exact Nat.mod_eq_of_lt (lt_of_le_of_lt hmax hsmall)
  refine ⟨hin, ?_, ?_, ?_, ?_, ?_, fun j y hy => ?_, fun j hj => ?_⟩
  · rw [hdino]
    exact himage
  · exact hkeep.1.trans ((ha.below 1 (by decide)).trans h.super)
  · exact hkeep.2.1.trans ((ha.below _ (by decide)).trans h.bits)
  · rw [hin]; exact h.low
  · rw [hin]; exact h.high
  · rw [hdino, hin]
    have hsame : ∀ j, Same j st1.img (update (dino sb st.img) i din) (updateView sb st1.img i d)
        (update (dino sb st.img) i d) := fun j => ⟨fun k => by rw [hslots], hbytes j⟩
    rw [update_apply] at hy
    split_ifs at hy with hj
    · subst hj
      cases hy
      refine ⟨h1, h3, hm.kind, ?_, ?_, ?_, (hsame j).holds ha.holds⟩
      · rw [update_self, ← hd]; exact hdin.1.trans hm.type
      · rw [update_self, ← hd]; exact hdin.2.trans hm.nlink
      · rw [update_self, ← hd]; exact hto
    · obtain ⟨hj1, hj2, hmj⟩ := h.made j y hy
      refine ⟨hj1, hj2, hmj.kind, ?_, ?_, ?_, (hsame j).holds ((ha.same j hj).holds hmj.holds)⟩
      · rw [update_of_ne hj]; exact hmj.type
      · rw [update_of_ne hj]; exact hmj.nlink
      · rw [update_of_ne hj]; exact hmj.size
  · rw [hdino]
    by_cases hj' : j = i
    · rw [hj', update_self] at hj; cases hj
    · rw [update_of_ne hj'] at hj ⊢
      exact h.free j hj

end Inodes

/-! ## The tree -/

/-- The bytes of a directory with these entries. -/
def dirBytes (links : List (Name × Nat)) : List UInt8 := links.flatMap fun l => direntBytes l.1 l.2

theorem dirBytes_cons (l : Name × Nat) (links : List (Name × Nat)) :
    dirBytes (l :: links) = direntBytes l.1 l.2 ++ dirBytes links := flatMap_cons

theorem length_dirBytes (links : List (Name × Nat)) : (dirBytes links).length = 16 * links.length := by
  induction links with
  | nil => rfl
  | cons l links ih =>
    rw [dirBytes_cons, length_append, ih, length_cons, direntBytes, length_map, length_range]
    omega

/-- `add_directory` makes something of this entry. -/
def Host.kept (name : Name) : Host → Bool
  | .other => false
  | _ => name != dot && name != dotdot

mutual

/-- Inode `ino`, in directory `parent`, holds what the host has. The inodes from `lo` to `hi` have been made
    for it. -/
inductive Stored (F : Nat → Option Made) (lo hi : Nat) : Nat → Nat → Host → Prop where
  | file {parent ino : Nat} {mtime : UInt32} {bytes : List UInt8} (h1 : lo ≤ ino) (h2 : ino < hi)
      (hF : F ino = some ⟨T_FILE, bytes⟩) : Stored F lo hi parent ino (.file mtime bytes)
  | dir {parent ino : Nat} {mtime : UInt32} {entries : Entries} {links : List (Name × Nat)} (h1 : lo ≤ ino)
      (h2 : ino < hi) (hF : F ino = some ⟨T_DIR, dirBytes ((dot, ino) :: (dotdot, parent) :: links)⟩)
      (hall : StoredAll F lo hi ino links entries) : Stored F lo hi parent ino (.dir mtime entries)

/-- The entries `links` of directory `dirino` are those of a directory of the host. -/
inductive StoredAll (F : Nat → Option Made) (lo hi : Nat) : Nat → List (Name × Nat) → Entries → Prop where
  | nil {dirino : Nat} : StoredAll F lo hi dirino [] .nil
  | skip {dirino : Nat} {links : List (Name × Nat)} {name : Name} {host : Host} {rest : Entries}
      (hk : host.kept name = false) (hall : StoredAll F lo hi dirino links rest) :
      StoredAll F lo hi dirino links (.cons name host rest)
  | cons {dirino ino : Nat} {links : List (Name × Nat)} {name : Name} {host : Host} {rest : Entries}
      (hk : host.kept name = true) (h : Stored F lo hi dirino ino host)
      (hall : StoredAll F lo hi dirino links rest) :
      StoredAll F lo hi dirino ((name, ino) :: links) (.cons name host rest)

end

mutual

/-- A directory that is kept below this one, or this one. -/
inductive Host.Has : Host → Entries → Prop where
  | self {mtime : UInt32} {es : Entries} : Host.Has (.dir mtime es) es
  | inside {mtime : UInt32} {es es' : Entries} (h : Below es es') : Host.Has (.dir mtime es) es'

inductive Below : Entries → Entries → Prop where
  | here {name : Name} {host : Host} {rest es : Entries} (hk : host.kept name = true) (h : host.Has es) :
      Below (.cons name host rest) es
  | rest {name : Name} {host : Host} {rest es : Entries} (h : Below rest es) : Below (.cons name host rest) es

end

/-- Inode `j` holds one of the directories `H` of the host. -/
def DirOf (F : Nat → Option Made) (lo hi : Nat) (H : Entries → Prop) (j : Nat) : Prop :=
  ∃ parent es, 1 ≤ parent ∧ parent < NINODES ∧ H es ∧ Stored F lo hi parent j (.dir 0 es)

/-- Every directory from inode `lo` on does. -/
def Covers (F : Nat → Option Made) (lo hi : Nat) (H : Entries → Prop) : Prop :=
  ∀ j c, lo ≤ j → F j = some ⟨T_DIR, c⟩ → DirOf F lo hi H j

section Frame

variable {F F' : Nat → Option Made} {lo hi lo' hi' : Nat}

mutual

/-- Only the inodes made for it matter. -/
theorem Stored.mono (hF : ∀ j, lo ≤ j → j < hi → F' j = F j) (hlo : lo' ≤ lo) (hhi : hi ≤ hi')
    {parent ino : Nat} {host : Host} (h : Stored F lo hi parent ino host) : Stored F' lo' hi' parent ino host := by
  cases h with
  | file h1 h2 hi => exact .file (hlo.trans h1) (lt_of_lt_of_le h2 hhi) ((hF ino h1 h2).trans hi)
  | dir h1 h2 hi hall =>
    exact .dir (hlo.trans h1) (lt_of_lt_of_le h2 hhi) ((hF ino h1 h2).trans hi)
      (StoredAll.mono hF hlo hhi hall)

theorem StoredAll.mono (hF : ∀ j, lo ≤ j → j < hi → F' j = F j) (hlo : lo' ≤ lo) (hhi : hi ≤ hi')
    {dirino : Nat} {links : List (Name × Nat)} {entries : Entries} (h : StoredAll F lo hi dirino links entries) :
    StoredAll F' lo' hi' dirino links entries := by
  cases h with
  | nil => exact .nil
  | skip hk hall => exact .skip hk (StoredAll.mono hF hlo hhi hall)
  | cons hk h hall => exact .cons hk (Stored.mono hF hlo hhi h) (StoredAll.mono hF hlo hhi hall)

end

theorem DirOf.mono {H H' : Entries → Prop} {j : Nat} (h : DirOf F lo hi H j) (hH : ∀ es, H es → H' es)
    (hF : ∀ j, lo ≤ j → j < hi → F' j = F j) (hlo : lo' ≤ lo) (hhi : hi ≤ hi') : DirOf F' lo' hi' H' j := by
  obtain ⟨parent, es, h1, h2, hes, hs⟩ := h
  exact ⟨parent, es, h1, h2, hH es hes, hs.mono hF hlo hhi⟩

theorem Covers.imp {H H' : Entries → Prop} (h : Covers F lo hi H) (hH : ∀ es, H es → H' es) : Covers F lo hi H' :=
  fun j c hj hF => (h j c hj hF).mono hH (fun _ _ _ => rfl) (le_refl _) (le_refl _)

end Frame

section Tree

variable {st st' : St} {F : Nat → Option Made} {dirino : Nat} {c : List UInt8} {name : Name}

/-- What a step makes: new inodes, and an addition to the directory `dirino`. -/
structure Adds (st : St) (F : Nat → Option Made) (dirino : Nat) (st' : St) (F' : Nat → Option Made) : Prop where
  good : Good st' F'
  le : st.freeinode ≤ st'.freeinode
  keep : ∀ j, j ≠ dirino → j < st.freeinode → F' j = F j

theorem Good.lt (h : Good st F) {j : Nat} {x : Made} (hx : F j = some x) : j < st.freeinode := (h.made j x hx).2.1

/-- The loop of `fappend` appends all bytes. -/
theorem fappendLoop_good {ino : Nat} (fuel : Nat) {st : St} {F : Nat → Option Made} {x : Made} {bytes : List UInt8}
    (h : Good st F) (hx : F ino = some x) (hb : bytes.length ≤ fuel) (hr : fappendLoop ino fuel st bytes = some st') :
    st'.freeinode = st.freeinode ∧ Good st' (update F ino (some { x with content := x.content ++ bytes })) := by
  induction fuel generalizing st F x bytes with
  | zero =>
    obtain rfl : bytes = [] := length_eq_zero_iff.mp (Nat.le_zero.mp hb)
    cases hr
    refine ⟨rfl, ?_⟩
    rw [append_nil, ← hx, update_eq_self]
    exact h
  | succ fuel ih =>
    rw [fappendLoop] at hr
    split_ifs at hr with hnil
    · cases hr
      refine ⟨rfl, ?_⟩
      rw [hnil, append_nil, ← hx, update_eq_self]
      exact h
    · obtain ⟨st1, h1, hr⟩ := bind_eq_some_iff.mp hr
      obtain ⟨hin, hg⟩ := iappend_good h hx h1
      have hpos := length_pos_iff.mpr hnil
      have hB : 0 < BSIZE := by decide
      obtain ⟨hin2, hg2⟩ := ih hg (update_self _ _ _) (by rw [length_drop]; omega) hr
      refine ⟨hin2.trans hin, ?_⟩
      rw [update_idem, append_assoc, take_append_drop] at hg2
      exact hg2

/-- **`fappend`** makes a file. -/
theorem fappend_stored (h : Good st F) (hd : F dirino = some ⟨T_DIR, c⟩) {mtime : UInt32} {bytes : List UInt8}
    (hr : fappend st dirino name mtime bytes = some st') : ∃ F' ino, Adds st F dirino st' F' ∧
      st'.freeinode = st.freeinode + 1 ∧ F' dirino = some ⟨T_DIR, c ++ direntBytes name ino⟩ ∧
      Stored F' st.freeinode st'.freeinode dirino ino (.file mtime bytes) := by
  obtain ⟨⟨ino, st1⟩, h1, hr⟩ := bind_eq_some_iff.mp hr
  obtain ⟨st2, h2, hr⟩ := bind_eq_some_iff.mp hr
  obtain ⟨rfl, hnew, hin1, hg1⟩ := ialloc_good h (by decide) h1
  have hlt := h.lt hd
  have hne : dirino ≠ st.freeinode := ne_of_lt hlt
  obtain ⟨hin2, hg2⟩ := iappend_good (x := ⟨T_DIR, c⟩) hg1 (by rw [update_of_ne hne]; exact hd) h2
  obtain ⟨hin3, hg3⟩ := fappendLoop_good (x := ⟨T_FILE, []⟩) _ hg2
    (by rw [update_of_ne hne.symm, update_self]) (le_refl _) hr
  have hin : st'.freeinode = st.freeinode + 1 := by rw [hin3, hin2, hin1]
  refine ⟨_, st.freeinode, ⟨hg3, by omega, fun j hj hjlt => ?_⟩, hin, ?_, .file (le_refl _) (by omega) ?_⟩
  · rw [update_of_ne (ne_of_lt hjlt), update_of_ne hj, update_of_ne (ne_of_lt hjlt)]
  · rw [update_of_ne hne, update_self]
  · rw [update_self]
    rfl

/-- **`makdir`** makes a directory with "." and "..". -/
theorem makdir_good (h : Good st F) (hd : F dirino = some ⟨T_DIR, c⟩) {mtime : UInt32} {ino : Nat}
    (hr : makdir st dirino name mtime = some (ino, st')) : ∃ F', Adds st F dirino st' F' ∧
      ino = st.freeinode ∧ st'.freeinode = st.freeinode + 1 ∧ F' dirino = some ⟨T_DIR, c ++ direntBytes name ino⟩ ∧
      F' ino = some ⟨T_DIR, dirBytes [(dot, ino), (dotdot, dirino)]⟩ := by
  obtain ⟨⟨ino', st1⟩, h1, hr⟩ := bind_eq_some_iff.mp hr
  obtain ⟨st2, h2, hr⟩ := bind_eq_some_iff.mp hr
  obtain ⟨st3, h3, hr⟩ := bind_eq_some_iff.mp hr
  obtain ⟨st4, h4, hr⟩ := map_eq_some_iff.mp hr
  obtain ⟨rfl, rfl⟩ := Prod.mk.inj hr
  obtain ⟨rfl, hnew, hin1, hg1⟩ := ialloc_good h (by decide) h1
  have hne : dirino ≠ st.freeinode := ne_of_lt (h.lt hd)
  obtain ⟨hin2, hg2⟩ := iappend_good hg1 (update_self _ _ _) h2
  obtain ⟨hin3, hg3⟩ := iappend_good hg2 (update_self _ _ _) h3
  rw [update_idem, update_idem] at hg3
  obtain ⟨hin4, hg4⟩ := iappend_good (x := ⟨T_DIR, c⟩) hg3 (by rw [update_of_ne hne]; exact hd) h4
  have hin : st4.freeinode = st.freeinode + 1 := by rw [hin4, hin3, hin2, hin1]
  refine ⟨_, ⟨hg4, by omega, fun j hj hjlt => ?_⟩, rfl, hin, ?_, ?_⟩
  · rw [update_of_ne hj, update_of_ne (ne_of_lt hjlt)]
  · rw [update_self]
  · rw [update_of_ne hne.symm, update_self]
    rfl

mutual

/-- **What `add_directory` makes of one entry.** -/
theorem addHost_stored (host : Host) {st st' : St} {F : Nat → Option Made} {dirino : Nat} {c : List UInt8}
    {name : Name} (h : Good st F) (hd : F dirino = some ⟨T_DIR, c⟩)
    (hr : addHost st dirino name host = some st') : (host = .other ∧ st' = st) ∨
      ∃ F' ino, Adds st F dirino st' F' ∧ F' dirino = some ⟨T_DIR, c ++ direntBytes name ino⟩ ∧
        Stored F' st.freeinode st'.freeinode dirino ino host ∧ Covers F' st.freeinode st'.freeinode host.Has := by
  cases host with
  | file mtime bytes =>
    obtain ⟨F', ino, ha, hin, hd', hs⟩ := fappend_stored h hd hr
    refine .inr ⟨F', ino, ha, hd', hs, fun j c' hj hF => ?_⟩
    -- the only new inode is a file
    cases hs with
    | file h1 h2 hF' =>
      have hlt := ha.good.lt hF
      obtain rfl : j = ino := by omega
      exact absurd (congrArg Made.type (some.inj (hF'.symm.trans hF))) (show T_FILE ≠ T_DIR by decide)
  | dir mtime entries =>
    obtain ⟨⟨ino, st1⟩, h1, hr⟩ := bind_eq_some_iff.mp hr
    obtain ⟨F1, ha1, rfl, hin, hdir, hnew⟩ := makdir_good h hd h1
    obtain ⟨F2, links, ha2, hlinks, hall, hcov⟩ := addDirectory_stored entries ha1.good hnew hr
    have hne : dirino ≠ st.freeinode := ne_of_lt (h.lt hd)
    have hle := ha2.le
    have hF : F2 st.freeinode = some ⟨T_DIR, dirBytes ((dot, st.freeinode) :: (dotdot, dirino) :: links)⟩ := by
      rw [hlinks]
      rfl
    have hall := hall.mono (fun _ _ _ => rfl) (show st.freeinode ≤ _ by omega) (le_refl _)
    refine .inr ⟨F2, st.freeinode, ⟨ha2.good, by omega, fun j hj hjlt => ?_⟩, ?_,
      .dir (le_refl _) (by omega) hF hall, fun j c' hj hj' => ?_⟩
    · rw [ha2.keep j (ne_of_lt hjlt) (by omega)]
      exact ha1.keep j hj hjlt
    · rw [ha2.keep dirino hne (by have := h.lt hd; omega)]
      exact hdir
    · rcases eq_or_lt_of_le hj with rfl | hj
      · exact ⟨dirino, entries, (h.made _ _ hd).1, (h.lt hd).trans h.high, .self, .dir (le_refl _) (by omega) hF hall⟩
      · exact (hcov j c' (by omega) hj').mono (fun _ => .inside) (fun _ _ _ => rfl) (by omega) (le_refl _)
  | other =>
    exact .inl ⟨rfl, (some.inj hr).symm⟩

/-- **What `add_directory` makes of a directory of the host.** -/
theorem addDirectory_stored (entries : Entries) {st st' : St} {F : Nat → Option Made} {dirino : Nat}
    {c : List UInt8} (h : Good st F) (hd : F dirino = some ⟨T_DIR, c⟩)
    (hr : addDirectory st dirino entries = some st') : ∃ F' links, Adds st F dirino st' F' ∧
      F' dirino = some ⟨T_DIR, c ++ dirBytes links⟩ ∧ StoredAll F' st.freeinode st'.freeinode dirino links entries ∧
      Covers F' st.freeinode st'.freeinode (Below entries) := by
  cases entries with
  | nil =>
    cases hr
    refine ⟨F, [], ⟨h, le_refl _, fun _ _ _ => rfl⟩, ?_, .nil, fun j _ hj hF => ?_⟩
    on_goal 2 => exact absurd (h.lt hF) (not_lt.mpr hj)
    rw [show dirBytes [] = [] from rfl, append_nil]
    exact hd
  | cons name host rest =>
    rw [addDirectory] at hr
    split_ifs at hr with hdot
    · have hk : host.kept name = false := by
        cases host <;> rcases hdot with rfl | rfl <;> rfl
      obtain ⟨F', links, ha, hlinks, hall, hcov⟩ := addDirectory_stored rest h hd hr
      exact ⟨F', links, ha, hlinks, .skip hk hall, hcov.imp fun _ => .rest⟩
    · obtain ⟨st1, h1, hr⟩ := bind_eq_some_iff.mp hr
      rcases addHost_stored host h hd h1 with ⟨rfl, rfl⟩ | ⟨F1, ino, ha1, hd1, hs, hcov1⟩
      · obtain ⟨F', links, ha, hlinks, hall, hcov⟩ := addDirectory_stored rest h hd hr
        exact ⟨F', links, ha, hlinks, .skip rfl hall, hcov.imp fun _ => .rest⟩
      · obtain ⟨F2, links, ha2, hlinks, hall, hcov⟩ := addDirectory_stored rest ha1.good hd1 hr
        have hlt := h.lt hd
        have hle1 := ha1.le
        have hle2 := ha2.le
        have hk : host.kept name = true := by
          obtain ⟨hn1, hn2⟩ := not_or.mp hdot
          cases hs <;> exact Bool.and_eq_true_iff.mpr ⟨bne_iff_ne.mpr hn1, bne_iff_ne.mpr hn2⟩
        -- the inodes made for the first entry are not touched again
        have hkeep : ∀ j, st.freeinode ≤ j → j < st1.freeinode → F2 j = F1 j :=
          fun j hj1 hj2 => ha2.keep j (by omega) hj2
        refine ⟨F2, (name, ino) :: links, ⟨ha2.good, by omega, fun j hj hjlt => ?_⟩, ?_,
          .cons hk (hs.mono hkeep (le_refl _) hle2) (hall.mono (fun _ _ _ => rfl) hle1 (le_refl _)),
          fun j c' hj hF => ?_⟩
        · rw [ha2.keep j hj (by omega)]
          exact ha1.keep j hj hjlt
        · rw [hlinks, dirBytes_cons, append_assoc]
        · by_cases hj1 : j < st1.freeinode
          · exact (hcov1 j c' hj ((hkeep j hj hj1).symm.trans hF)).mono (fun _ => .here hk) hkeep (le_refl _) hle2
          · exact (hcov j c' (by omega) hF).mono (fun _ => .rest) (fun _ _ _ => rfl) hle1 (le_refl _)

end

end Tree

end Xv6Mkfs
