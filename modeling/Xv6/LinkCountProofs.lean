import Xv6.DirMapProofs
import Mathlib.Data.Set.Card

/-!
# Link counts — what `nlink` counts in a table of nodes

The names of an inode are the live directory entries with its number, other than "." and "..". The link count of a file is
the number of its names; that of a directory counts its subdirectories too, for their "..", and the root has one link more.
`Tally` says so of a whole table. It is kept by what `link` does to the table as long as the count fits into sixteen bits,
by what `unlink` does, and when an inode without links is freed.
-/

namespace Xv6World

open ByteBuf Xv6Disk Xv6Kernel Xv6Fs Xv6Sys Xv6Layout Xv6Own Xv6Inode Function Option Set

/-! ## Names -/

/-- The entries that name inode `i`. -/
def namesOf (T : Nat → Option Node) (i : Nat) : Set (Nat × Nat) := { a | Names T a.1 a.2 i ∧ 2 ≤ a.2 }

def IsDir (T : Nat → Option Node) (i : Nat) : Prop := ∃ x, T i = some x ∧ x.type = T_DIR

/-- The entries of `d` that name directories. -/
def kidsOf (T : Nat → Option Node) (d : Nat) : Set Nat := { k | 2 ≤ k ∧ ∃ i, Names T d k i ∧ IsDir T i }

noncomputable def nameCount (T : Nat → Option Node) (i : Nat) : Nat := (namesOf T i).ncard

noncomputable def kidCount (T : Nat → Option Node) (d : Nat) : Nat := (kidsOf T d).ncard

/-- What the link count of `i`, a node of this type, should be. -/
noncomputable def links (T : Nat → Option Node) (i : Nat) (type : Int16) : Nat :=
  nameCount T i + if type = T_DIR then kidCount T i + (if i = ROOTINO then 1 else 0) else 0

/-- An entry "." or "..": it is live, and leads to no file. -/
structure DotEntry (T : Nat → Option Node) (e : Dirent) : Prop where
  live : e.inum ≠ 0
  name : nameOf e = dot ∨ nameOf e = dotdot
  dir : ∀ y, T e.inum.toNat = some y → y.type = T_DIR

/-- **The link counts are right**, each directory starts with "." and "..", and names lead to allocated inodes. -/
structure Tally (T : Nat → Option Node) : Prop where
  finite : { a : Nat × Nat | ∃ i, Names T a.1 a.2 i }.Finite
  dots : ∀ d x, T d = some x → x.type = T_DIR → 2 ≤ x.entries ∧ ∀ k, k < 2 → DotEntry T (x.entry k)
  named : ∀ d k i, Names T d k i → 2 ≤ k → T i ≠ none
  count : ∀ i x, T i = some x → x.nlink.toInt = links T i x.type

section Sets

variable {T T' : Nat → Option Node} {i d k j m : Nat} {x y : Node} {e : Dirent}

theorem names_iff : Names T d k i ↔ ∃ x, T d = some x ∧ x.type = T_DIR ∧ Live x k ∧ (x.entry k).inum.toNat = i := by
  constructor
  · rintro ⟨x, hx, hdir, hk, hne, hi⟩
    exact ⟨x, hx, hdir, ⟨hk, hne⟩, hi⟩
  · rintro ⟨x, hx, hdir, ⟨hk, hne⟩, hi⟩
    exact ⟨x, hx, hdir, hk, hne, hi⟩

theorem names_unique (h : Names T d k i) (h' : Names T d k j) : i = j := by
  obtain ⟨x, hx, -, -, -, rfl⟩ := h
  obtain ⟨y, hy, -, -, -, rfl⟩ := h'
  rw [some.inj (hx.symm.trans hy)]

section

variable (h : Tally T)
include h

theorem Tally.namesFinite (i : Nat) : (namesOf T i).Finite :=
  h.finite.subset fun _ ha => ⟨i, ha.1⟩

theorem Tally.kidsFinite (d : Nat) : (kidsOf T d).Finite := by
  refine (h.finite.preimage (f := fun k => (d, k)) fun a _ b _ hab => (Prod.mk.inj hab).2).subset ?_
  rintro k ⟨-, i, hn, -⟩
  exact ⟨i, hn⟩

/-- No names: nothing but "." and ".." leads there. -/
theorem Tally.noNames (h0 : nameCount T i = 0) (hn : Names T d k i) : ¬ 2 ≤ k := by
  intro hk
  have hempty := (ncard_eq_zero (h.namesFinite i)).mp h0
  have hmem : (d, k) ∈ namesOf T i := ⟨hn, hk⟩
  rw [hempty] at hmem
  exact hmem

theorem nameCount_pos (hn : Names T d k i) (hk : 2 ≤ k) : 1 ≤ nameCount T i :=
  (ncard_pos (h.namesFinite i)).mpr ⟨(d, k), hn, hk⟩

theorem kidCount_pos (hn : Names T d k i) (hk : 2 ≤ k) (hi : IsDir T i) : 1 ≤ kidCount T d :=
  (ncard_pos (h.kidsFinite d)).mpr ⟨k, hk, i, hn, hi⟩

/-- A named inode has a link. -/
theorem Tally.nlink_pos (hn : Names T d k i) (hk : 2 ≤ k) (hx : T i = some x) : 1 ≤ x.nlink.toInt := by
  have hpos := nameCount_pos h hn hk
  rw [h.count i x hx, links]
  omega

end

/-! ## Changes of a table -/

theorem names_nlink {n : Int16} (hx : T i = some x) :
    Names (update T i (some { x with nlink := n })) d k j ↔ Names T d k j := by
  by_cases hd : d = i
  · subst hd
    rw [names_iff, names_iff, update_self, hx]
    constructor
    · rintro ⟨y, hy, h⟩
      cases hy
      exact ⟨x, rfl, h⟩
    · rintro ⟨y, hy, h⟩
      cases hy
      exact ⟨_, rfl, h⟩
  · exact names_update_ne hd

theorem isDir_iff (hx : T i = some x) : IsDir T i ↔ x.type = T_DIR := by
  rw [IsDir, hx]
  exact ⟨fun ⟨_, hz, hd⟩ => some.inj hz ▸ hd, fun hd => ⟨x, rfl, hd⟩⟩

theorem nameCount_congr (h : ∀ a b, 2 ≤ b → (Names T' a b j ↔ Names T a b j)) : nameCount T' j = nameCount T j :=
  congrArg ncard (ext fun a => and_congr_left fun hb => h a.1 a.2 hb)

theorem kidCount_congr (h : ∀ b j, 2 ≤ b → (Names T' d b j ∧ IsDir T' j ↔ Names T d b j ∧ IsDir T j)) :
    kidCount T' d = kidCount T d :=
  congrArg ncard (ext fun b => and_congr_right fun hb => exists_congr fun j => h b j hb)

theorem isDir_update (hx : T i = some x) (htype : y.type = x.type) : IsDir (update T i (some y)) j ↔ IsDir T j := by
  by_cases hj : j = i
  · subst hj
    rw [isDir_iff (update_self ..), isDir_iff hx, htype]
  · rw [IsDir, IsDir, update_of_ne hj]

theorem names_setEntry (hx : T d = some x) (hdir : x.type = T_DIR) (hk : k ≤ x.entries) {a b : Nat} :
    Names (update T d (some (x.setEntry k e))) a b j ↔
      (a = d ∧ b = k ∧ e.inum ≠ 0 ∧ e.inum.toNat = j) ∨ (¬ (a = d ∧ b = k) ∧ Names T a b j) := by
  by_cases ha : a = d
  · subst ha
    rw [names_iff, update_self]
    by_cases hb : b = k
    · subst hb
      constructor
      · rintro ⟨z, hz, -, hl, hj⟩
        cases hz
        rw [setEntry_entry] at hj
        have hne := hl.2
        rw [setEntry_entry] at hne
        exact .inl ⟨rfl, rfl, hne, hj⟩
      · rintro (⟨-, -, hne, hj⟩ | ⟨hno, -⟩)
        · exact ⟨_, rfl, hdir, (live_setEntry hk).mpr (.inl ⟨rfl, hne⟩), by rw [setEntry_entry]; exact hj⟩
        · exact absurd ⟨rfl, rfl⟩ hno
    · constructor
      · rintro ⟨z, hz, -, hl, hj⟩
        cases hz
        rw [setEntry_entry_ne hb] at hj
        rcases (live_setEntry hk).mp hl with ⟨hbk, -⟩ | ⟨-, hl⟩
        · exact absurd hbk hb
        · exact .inr ⟨fun h => hb h.2, names_iff.mpr ⟨x, hx, hdir, hl, hj⟩⟩
      · rintro (⟨-, hbk, -⟩ | ⟨-, hn⟩)
        · exact absurd hbk hb
        · obtain ⟨z, hz, -, hl, hj⟩ := names_iff.mp hn
          rw [hx] at hz
          cases hz
          exact ⟨_, rfl, hdir, (live_setEntry hk).mpr (.inr ⟨hb, hl⟩), by rw [setEntry_entry_ne hb]; exact hj⟩
  · rw [names_update_ne ha]
    constructor
    · exact fun hn => .inr ⟨fun h => ha h.1, hn⟩
    · rintro (⟨had, -⟩ | ⟨-, hn⟩)
      · exact absurd had ha
      · exact hn

theorem names_free : Names (update T i none) d k j ↔ d ≠ i ∧ Names T d k j := by
  by_cases hd : d = i
  · subst hd
    refine ⟨?_, fun h => absurd rfl h.1⟩
    rintro ⟨x, hx, -⟩
    rw [update_self] at hx
    cases hx
  · rw [names_update_ne hd]
    exact ⟨fun h => ⟨hd, h⟩, fun h => h.2⟩

theorem isDir_free : IsDir (update T i none) j ↔ j ≠ i ∧ IsDir T j := by
  by_cases hj : j = i
  · subst hj
    refine ⟨?_, fun h => absurd rfl h.1⟩
    rintro ⟨x, hx, -⟩
    rw [update_self] at hx
    cases hx
  · rw [IsDir, IsDir, update_of_ne hj]
    exact ⟨fun h => ⟨hj, h⟩, fun h => h.2⟩

theorem toInt_succ {a : Int16} (h0 : 0 ≤ a.toInt) (h : a.toInt < 32767) : (a + 1).toInt = a.toInt + 1 := by
  rw [Int16.toInt_add]
  have h1 : (1 : Int16).toInt = 1 := by decide
  exact Int.bmod_eq_of_le (by omega) (by omega)

theorem toInt_pred {a : Int16} (h : 1 ≤ a.toInt) : (a - 1).toInt = a.toInt - 1 := by
  have hlt := a.toInt_lt
  rw [Int16.toInt_sub]
  have h1 : (1 : Int16).toInt = 1 := by decide
  exact Int.bmod_eq_of_le (by omega) (by omega)

end Sets

/-! ## The changes of `link` and `unlink` -/

section Steps

variable {T T' : Nat → Option Node} {i d m : Nat} {x y : Node} {e : Dirent}

theorem Tally.freeSlot_ge (h : Tally T) (hy : T d = some y) (hdir : y.type = T_DIR) : 2 ≤ y.freeSlot := by
  obtain ⟨hent, hdots⟩ := h.dots d y hy hdir
  by_contra hlt
  rcases freeSlot_spec (x := y) with heq | ⟨-, hfree⟩
  · omega
  · exact (hdots y.freeSlot (by omega)).live hfree

/-- Two tables with directories in the same places: the dots of `T` do for `T'`. -/
theorem DotEntry.table (h : DotEntry T e) (hdir : ∀ j, IsDir T' j ↔ IsDir T j) (hsome : ∀ j, T' j ≠ none → T j ≠ none) :
    DotEntry T' e := by
  refine ⟨h.live, h.name, fun y hy => ?_⟩
  obtain ⟨z, hz⟩ := ne_none_iff_exists'.mp (hsome _ (by rw [hy]; exact nofun))
  obtain ⟨y', hy', hyd⟩ := (hdir _).mpr ⟨z, hz, h.dir z hz⟩
  rw [hy] at hy'
  cases hy'
  exact hyd

theorem some_update (hx : T i = some x) : update T i (some y) j ≠ none ↔ T j ≠ none := by
  by_cases hj : j = i
  · rw [hj, update_self, hx]
    exact ⟨nofun, nofun⟩
  · rw [update_of_ne hj]

/-- A node changes behind its first two entries. -/
theorem dots_update (h : ∀ d x, T d = some x → x.type = T_DIR → 2 ≤ x.entries ∧ ∀ k, k < 2 → DotEntry T (x.entry k))
    (hx : T i = some x) (htype : y.type = x.type) (hsize : x.entries ≤ y.entries)
    (hentry : ∀ k, k < 2 → y.entry k = x.entry k) (a : Nat) (z : Node) (hz : update T i (some y) a = some z)
    (hzd : z.type = T_DIR) : 2 ≤ z.entries ∧ ∀ k, k < 2 → DotEntry (update T i (some y)) (z.entry k) := by
  have hold : ∀ e, DotEntry T e → DotEntry (update T i (some y)) e :=
    fun _ he => he.table (fun _ => isDir_update hx htype) fun _ => (some_update hx).mp
  rw [update_apply] at hz
  split_ifs at hz
  · cases hz
    obtain ⟨hent, hdots⟩ := h i x hx (htype ▸ hzd)
    refine ⟨hent.trans hsize, fun k hk => ?_⟩
    rw [hentry k hk]
    exact hold _ (hdots k hk)
  · obtain ⟨hent, hdots⟩ := h a z hz hzd
    exact ⟨hent, fun k hk => hold _ (hdots k hk)⟩

/-- **A name is added** and the link count goes up. -/
theorem Tally.link (h : Tally T) (hx : T i = some x) (hfile : x.type ≠ T_DIR) (hy : T d = some y)
    (hdir : y.type = T_DIR) (he : e.inum ≠ 0) (hei : e.inum.toNat = i) (hsmall : nameCount T i < 32767)
    (hT : T' = update (update T i (some { x with nlink := x.nlink + 1 })) d
      (some (y.setEntry y.freeSlot e))) :
    Tally T' ∧ nameCount T' i = nameCount T i + 1 ∧ ∀ j, j ≠ i → nameCount T' j = nameCount T j := by
  have hdi : d ≠ i := by
    rintro rfl
    rw [hx] at hy
    cases hy
    exact hfile hdir
  have h1d : update T i (some { x with nlink := x.nlink + 1 }) d = some y := by
    rw [update_of_ne hdi, hy]
  have hnot : ∀ j, ¬ Names T d y.freeSlot j := by
    intro j hn
    obtain ⟨z, hz, -, hl, -⟩ := names_iff.mp hn
    rw [hy] at hz
    cases hz
    exact not_live_freeSlot hl
  have hslot := h.freeSlot_ge hy hdir
  have hnames : ∀ a b j, Names T' a b j ↔ (a = d ∧ b = y.freeSlot ∧ i = j) ∨ Names T a b j := by
    intro a b j
    rw [hT, names_setEntry h1d hdir freeSlot_le, names_nlink hx]
    constructor
    · rintro (⟨ha, hb, -, hj⟩ | ⟨-, hn⟩)
      · exact .inl ⟨ha, hb, hei.symm.trans hj⟩
      · exact .inr hn
    · rintro (⟨ha, hb, hj⟩ | hn)
      · exact .inl ⟨ha, hb, he, hei.trans hj⟩
      · refine .inr ⟨?_, hn⟩
        rintro ⟨rfl, rfl⟩
        exact hnot j hn
  have hisdir : ∀ j, IsDir T' j ↔ IsDir T j := by
    intro j
    rw [hT]
    exact (isDir_update h1d setEntry_type).trans (isDir_update hx rfl)
  have hifile : ¬ IsDir T i := fun hd => hfile ((isDir_iff hx).mp hd)
  have hself : namesOf T' i = insert (d, y.freeSlot) (namesOf T i) := by
    ext ⟨a, b⟩
    show (Names T' a b i ∧ 2 ≤ b) ↔ ((a, b) = (d, y.freeSlot) ∨ (Names T a b i ∧ 2 ≤ b))
    rw [hnames, Prod.mk.injEq]
    constructor
    · rintro ⟨⟨ha, hb, -⟩ | hn, hb2⟩
      · exact .inl ⟨ha, hb⟩
      · exact .inr ⟨hn, hb2⟩
    · rintro (⟨ha, hb⟩ | ⟨hn, hb2⟩)
      · exact ⟨.inl ⟨ha, hb, rfl⟩, by omega⟩
      · exact ⟨.inr hn, hb2⟩
  have hcount : ∀ j, j ≠ i → nameCount T' j = nameCount T j := by
    refine fun j hj => nameCount_congr fun a b _ => ?_
    rw [hnames]
    exact or_iff_right fun hn => hj hn.2.2.symm
  have hkidc : ∀ a, kidCount T' a = kidCount T a := by
    refine fun a => kidCount_congr fun b j _ => ?_
    rw [hnames, hisdir]
    constructor
    · rintro ⟨⟨-, -, rfl⟩ | hn, hj⟩
      · exact absurd hj hifile
      · exact ⟨hn, hj⟩
    · exact fun hn => ⟨.inr hn.1, hn.2⟩
  have hcounti : nameCount T' i = nameCount T i + 1 := by
    rw [nameCount, hself, ncard_insert_of_notMem (fun hm => hnot i hm.1) (h.namesFinite i), nameCount]
  -- the nodes of `T'` and what they were
  have hT'i : T' i = some { x with nlink := x.nlink + 1 } := by
    rw [hT, update_of_ne hdi.symm, update_self]
  have hT'd : T' d = some (y.setEntry y.freeSlot e) := by rw [hT, update_self]
  have hT'o : ∀ j, j ≠ i → j ≠ d → T' j = T j := by
    intro j hi hd
    rw [hT, update_of_ne hd, update_of_ne hi]
  refine ⟨⟨?_, ?_, ?_, ?_⟩, hcounti, hcount⟩
  · refine (h.finite.insert (d, y.freeSlot)).subset ?_
    rintro ⟨a, b⟩ ⟨j, hn⟩
    rcases (hnames a b j).mp hn with ⟨ha, hb, -⟩ | hn
    · exact .inl (Prod.ext ha hb)
    · exact .inr ⟨j, hn⟩
  · rw [hT]
    exact dots_update (dots_update h.dots hx rfl le_rfl fun _ _ => rfl) h1d setEntry_type
      (by rw [setEntry_entries]; omega) fun k hk => setEntry_entry_ne (by omega)
  · intro a b j hn hb
    rw [hT, some_update h1d, some_update hx]
    rcases (hnames a b j).mp hn with ⟨-, -, rfl⟩ | hn
    · rw [hx]
      exact nofun
    · exact h.named a b j hn hb
  · intro j z hz
    by_cases hji : j = i
    · rw [hji, hT'i] at hz
      cases hz
      have hold := h.count i x hx
      rw [links, if_neg hfile] at hold
      rw [hji, links, hcounti]
      rw [if_neg hfile, toInt_succ (by omega) (by omega)]
      omega
    · rw [links, hcount j hji, hkidc j]
      by_cases hjd : j = d
      · rw [hjd, hT'd] at hz
        cases hz
        rw [hjd]
        exact h.count d y hy
      · rw [hT'o j hji hjd] at hz
        exact h.count j z hz

/-- **A name is cleared** and the link count goes down, and that of the directory with it if a directory is removed. -/
theorem Tally.unlink (h : Tally T) (hx : T i = some x) (hy : T d = some y) (hdir : y.type = T_DIR) (hdi : d ≠ i)
    (hm : 2 ≤ m) (hlive : Live y m) (hmi : (y.entry m).inum.toNat = i) (he : e.inum = 0)
    (hT : T' = update (update T d (some { y.setEntry m e with
      nlink := if x.type = T_DIR then y.nlink - 1 else y.nlink })) i (some { x with nlink := x.nlink - 1 })) :
    Tally T' ∧ nameCount T' i + 1 = nameCount T i ∧ ∀ j, j ≠ i → nameCount T' j = nameCount T j := by
  have hmle : m ≤ y.entries := Nat.le_of_lt hlive.1
  let y' : Node := { y.setEntry m e with nlink := if x.type = T_DIR then y.nlink - 1 else y.nlink }
  have hT1 : update T d (some y') = update (update T d (some (y.setEntry m e))) d (some y') :=
    (update_idem _ _ _).symm
  have h1d : update T d (some (y.setEntry m e)) d = some (y.setEntry m e) := update_self _ _ _
  have h2i : update T d (some y') i = some x := by rw [update_of_ne hdi.symm, hx]
  have hthere : Names T d m i := names_iff.mpr ⟨y, hy, hdir, hlive, hmi⟩
  have hnames : ∀ a b j, Names T' a b j ↔ ¬ (a = d ∧ b = m) ∧ Names T a b j := by
    intro a b j
    rw [hT, names_nlink h2i, hT1, names_nlink h1d, names_setEntry hy hdir hmle]
    constructor
    · rintro (⟨-, -, hne, -⟩ | hn)
      · exact absurd he hne
      · exact hn
    · exact .inr
  have hisdir : ∀ j, IsDir T' j ↔ IsDir T j := by
    intro j
    rw [hT]
    exact (isDir_update h2i (y := { x with nlink := x.nlink - 1 }) rfl).trans (isDir_update hy rfl)
  have hself : namesOf T' i = namesOf T i \ {(d, m)} := by
    ext ⟨a, b⟩
    show (Names T' a b i ∧ 2 ≤ b) ↔ (Names T a b i ∧ 2 ≤ b) ∧ ¬ (a, b) = (d, m)
    rw [hnames, Prod.mk.injEq]
    exact ⟨fun hn => ⟨⟨hn.1.2, hn.2⟩, hn.1.1⟩, fun hn => ⟨⟨hn.2, hn.1.1⟩, hn.1.2⟩⟩
  have hcount : ∀ j, j ≠ i → nameCount T' j = nameCount T j := by
    refine fun j hj => nameCount_congr fun a b _ => ?_
    rw [hnames]
    refine and_iff_right_of_imp fun hn => ?_
    rintro ⟨rfl, rfl⟩
    exact hj (names_unique hn hthere)
  have hcounti : nameCount T' i + 1 = nameCount T i := by
    rw [nameCount, hself, nameCount]
    exact ncard_sdiff_singleton_add_one ⟨hthere, hm⟩ (h.namesFinite i)
  -- the subdirectories of `d`
  have hkido : ∀ a, a ≠ d → kidCount T' a = kidCount T a := by
    refine fun a ha => kidCount_congr fun b j _ => ?_
    rw [hnames, hisdir, and_iff_right fun hc => ha hc.1]
  have hkidd : kidCount T' d + (if x.type = T_DIR then 1 else 0) = kidCount T d := by
    have hset : kidsOf T' d = kidsOf T d \ {m} := by
      ext b
      constructor
      · rintro ⟨hb, j, hn, hj⟩
        obtain ⟨hne, hn⟩ := (hnames d b j).mp hn
        exact ⟨⟨hb, j, hn, (hisdir j).mp hj⟩, fun hbm => hne ⟨rfl, hbm⟩⟩
      · rintro ⟨⟨hb, j, hn, hj⟩, hne⟩
        exact ⟨hb, j, (hnames d b j).mpr ⟨fun hc => hne hc.2, hn⟩, (hisdir j).mpr hj⟩
    rw [kidCount, hset, kidCount]
    split_ifs with hxd
    · exact ncard_sdiff_singleton_add_one ⟨hm, i, hthere, (isDir_iff hx).mpr hxd⟩ (h.kidsFinite d)
    · have hnot : m ∉ kidsOf T d := by
        rintro ⟨-, j, hn, hj⟩
        rw [names_unique hn hthere] at hj
        exact hxd ((isDir_iff hx).mp hj)
      rw [sdiff_singleton_eq_self hnot]
      rfl
  have hT'i : T' i = some { x with nlink := x.nlink - 1 } := by rw [hT, update_self]
  have hT'd : T' d = some y' := by rw [hT, update_of_ne hdi, update_self]
  have hT'o : ∀ j, j ≠ i → j ≠ d → T' j = T j := by
    intro j hi hd
    rw [hT, update_of_ne hi, update_of_ne hd]
  refine ⟨⟨?_, ?_, ?_, ?_⟩, hcounti, hcount⟩
  · refine h.finite.subset ?_
    rintro ⟨a, b⟩ ⟨j, hn⟩
    exact ⟨j, ((hnames a b j).mp hn).2⟩
  · rw [hT]
    refine dots_update (dots_update h.dots hy rfl ?_ fun k hk => ?_) h2i rfl le_rfl fun _ _ => rfl
    · show y.entries ≤ (y.setEntry m e).entries
      rw [setEntry_entries]
      omega
    · exact setEntry_entry_ne (by omega)
  · intro a b j hn hb
    rw [hT, some_update h2i, some_update hy]
    exact h.named a b j ((hnames a b j).mp hn).2 hb
  · intro j z hz
    by_cases hji : j = i
    · rw [hji, hT'i] at hz
      cases hz
      have hpos := h.nlink_pos hthere hm hx
      have hcnt := h.count i x hx
      rw [links] at hcnt
      rw [hji, links, hkido i hdi.symm]
      show (x.nlink - 1).toInt = ((nameCount T' i + if x.type = T_DIR then _ else 0 : Nat) : Int)
      rw [toInt_pred hpos]
      omega
    · by_cases hjd : j = d
      · rw [hjd, hT'd] at hz
        cases hz
        have hcnt := h.count d y hy
        rw [links, if_pos hdir] at hcnt
        rw [hjd, links, hcount d hdi]
        show (if x.type = T_DIR then y.nlink - 1 else y.nlink).toInt
          = ((nameCount T d + if y.type = T_DIR then kidCount T' d + _ else 0 : Nat) : Int)
        rw [if_pos hdir]
        by_cases hxd : x.type = T_DIR
        · rw [if_pos hxd] at hkidd ⊢
          rw [toInt_pred (by omega)]
          omega
        · rw [if_neg hxd] at hkidd ⊢
          omega
      · rw [links, hcount j hji, hkido j hjd]
        rw [hT'o j hji hjd] at hz
        exact h.count j z hz

/-- **An inode without links is freed**: no entry leads to it, and if it is a directory it has no names in it. -/
theorem Tally.free (h : Tally T) (hx : T i = some x) (h0 : x.nlink = 0)
    (hempty : x.type = T_DIR → ∀ k, 2 ≤ k → ¬ Live x k) :
    Tally (update T i none) ∧ ∀ j, nameCount (update T i none) j = nameCount T j := by
  have hcnt := h.count i x hx
  have hz : (0 : Int16).toInt = 0 := by decide
  rw [h0, hz, links] at hcnt
  have hnone : nameCount T i = 0 := by omega
  have hinside : ∀ k j, Names T i k j → ¬ 2 ≤ k := by
    intro k j hn hk
    obtain ⟨z, hz, hzd, hl, -⟩ := names_iff.mp hn
    rw [hx] at hz
    cases hz
    exact hempty hzd k hk hl
  have hcount : ∀ j, nameCount (update T i none) j = nameCount T j := by
    refine fun j => nameCount_congr fun a b hb => ?_
    rw [names_free]
    refine and_iff_right_of_imp fun hn => ?_
    rintro rfl
    exact hinside b j hn hb
  have hkids : ∀ a, a ≠ i → kidCount (update T i none) a = kidCount T a := by
    refine fun a ha => kidCount_congr fun b j hb => ?_
    rw [names_free, isDir_free]
    refine ⟨fun hn => ⟨hn.1.2, hn.2.2⟩, fun hn => ⟨⟨ha, hn.1⟩, ?_, hn.2⟩⟩
    rintro rfl
    exact h.noNames hnone hn.1 hb
  refine ⟨⟨?_, ?_, ?_, ?_⟩, hcount⟩
  · refine h.finite.subset ?_
    rintro ⟨a, b⟩ ⟨j, hn⟩
    exact ⟨j, (names_free.mp hn).2⟩
  · intro a z hz hzd
    have hai : a ≠ i := by
      rintro rfl
      rw [update_self] at hz
      cases hz
    rw [update_of_ne hai] at hz
    obtain ⟨hent, hdots⟩ := h.dots a z hz hzd
    refine ⟨hent, fun k hk => ⟨(hdots k hk).live, (hdots k hk).name, fun w hw => (hdots k hk).dir w ?_⟩⟩
    rw [update_apply] at hw
    split_ifs at hw
    exact hw
  · intro a b j hn hb
    have hn' := (names_free.mp hn).2
    have hji : j ≠ i := by
      rintro rfl
      exact h.noNames hnone hn' hb
    rw [update_of_ne hji]
    exact h.named a b j hn' hb
  · intro j z hz
    have hji : j ≠ i := by
      rintro rfl
      rw [update_self] at hz
      cases hz
    rw [update_of_ne hji] at hz
    rw [links, hcount j, hkids j hji]
    exact h.count j z hz

end Steps

end Xv6World
