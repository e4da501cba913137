import Xv6.InodeCacheProofs
import Xv6.SysfileCodeProofs

/-!
# Directories — a node as a list of entries

A directory is a file of sixteen-byte entries. `Node.entry` reads entry `k` of a node, and
the three scans of `fs.c` and `sysfile.c` over a directory get their meaning from it:
`dirlookup` finds the first live entry of a name (`Node.lookup`), `dirlink` the first free one
(`Node.freeSlot`), and `isdirempty` looks for a live one after "." and "..".

None of them changes the disk. A scan that reads less than a whole entry panics, so nothing
is assumed about the size of a directory.
-/

namespace Xv6Own

open CmdProg ByteBuf Xv6Disk Xv6Kernel Xv6Fs Xv6Layout Xv6Inode Xv6Sys List UInt32

/-! ## Entries -/

/-- How many whole entries a directory has. -/
def Node.entries (x : Node) : Nat := x.size / 16

/-- Entry `k` of a directory. -/
def Node.entry (x : Node) (k : Nat) : Dirent := getDirent fun j => x.bytes (16 * k + j)

/-- Entry `k` is live and has the name. -/
def Node.hasName (x : Node) (name : List UInt8) (k : Nat) : Bool :=
  decide ((x.entry k).inum ≠ 0) && decide (namecmp name (ofFn (x.entry k).name) = 0)

/-- The first live entry with the name, from entry `k` on. -/
def Node.lookupFrom (x : Node) (name : List UInt8) (k : Nat) : Option Nat :=
  (range' k (x.entries - k)).find? (x.hasName name)

/-- The first live entry with the name. -/
def Node.lookup (x : Node) (name : List UInt8) : Option Nat := x.lookupFrom name 0

/-- The first free entry, from entry `k` on, or else the place after the last. -/
def Node.freeFrom (x : Node) (k : Nat) : Nat :=
  ((range' k (x.entries - k)).find? fun m => decide ((x.entry m).inum = 0)).getD x.entries

/-- Where a new entry goes. -/
def Node.freeSlot (x : Node) : Nat := x.freeFrom 0

/-- The directory with `e` as its entry `k`. -/
def Node.setEntry (x : Node) (k : Nat) (e : Dirent) : Node := x.write (16 * k) 16 e.byte

section Entries

variable {x : Node} {name : List UInt8} {k m : Nat} {e : Dirent}

@[simp] theorem setEntry_type : (x.setEntry k e).type = x.type := rfl

theorem setEntry_entry : (x.setEntry k e).entry k = e := by
  refine (getDirent_congr fun j hj => ?_).trans (getDirent_byte e)
  show written x.bytes (16 * k) 16 e.byte (16 * k + j) = _
  rw [written, if_pos ⟨by omega, by omega⟩, Nat.add_sub_cancel_left]

theorem setEntry_entry_ne (h : m ≠ k) : (x.setEntry k e).entry m = x.entry m := by
  refine getDirent_congr fun j hj => ?_
  show written x.bytes (16 * k) 16 e.byte (16 * m + j) = _
  rw [written, if_neg (by omega)]

theorem setEntry_entries : (x.setEntry k e).entries = max x.entries (k + 1) := by
  show max x.size (16 * k + 16) / 16 = max (x.size / 16) (k + 1)
  omega

/-- One step of a scan. -/
theorem range_step {n : Nat} (h : k < n) : range' k (n - k) = k :: range' (k + 1) (n - (k + 1)) := by
  rw [show n - k = (n - (k + 1)) + 1 by omega, range'_succ]

theorem lookupFrom_end (h : x.entries ≤ k) : x.lookupFrom name k = none := by
  rw [Node.lookupFrom, show x.entries - k = 0 by omega]
  rfl

theorem lookupFrom_hit (h : k < x.entries) (hm : x.hasName name k = true) : x.lookupFrom name k = some k := by
  rw [Node.lookupFrom, range_step h, find?_cons_of_pos hm]

theorem lookupFrom_miss (h : k < x.entries) (hm : x.hasName name k = false) :
    x.lookupFrom name k = x.lookupFrom name (k + 1) := by
  rw [Node.lookupFrom, range_step h, find?_cons_of_neg (by simp [hm])]
  rfl

/-- What `lookup` finds is a live entry of that name. -/
theorem lookup_some (h : x.lookup name = some k) :
    k < x.entries ∧ (x.entry k).inum ≠ 0 ∧ namecmp name (ofFn (x.entry k).name) = 0 := by
  have hmem := mem_of_find?_eq_some h
  have hname := find?_some h
  rw [mem_range'_1] at hmem
  rw [Node.hasName, Bool.and_eq_true, decide_eq_true_eq, decide_eq_true_eq] at hname
  exact ⟨by omega, hname.1, hname.2⟩

theorem freeFrom_end (h : x.entries ≤ k) : x.freeFrom k = x.entries := by
  rw [Node.freeFrom, show x.entries - k = 0 by omega]
  rfl

theorem freeFrom_hit (h : k < x.entries) (hk : (x.entry k).inum = 0) : x.freeFrom k = k := by
  rw [Node.freeFrom, range_step h, find?_cons_of_pos (by simp [hk])]
  rfl

theorem freeFrom_miss (h : k < x.entries) (hk : (x.entry k).inum ≠ 0) : x.freeFrom k = x.freeFrom (k + 1) := by
  rw [Node.freeFrom, range_step h, find?_cons_of_neg (by simp [hk])]
  rfl

/-- The free slot is after the entries or is a free entry. -/
theorem freeSlot_spec : x.freeSlot = x.entries ∨ (x.freeSlot < x.entries ∧ (x.entry x.freeSlot).inum = 0) := by
  cases h : (range' 0 (x.entries - 0)).find? fun m => decide ((x.entry m).inum = 0) with
  | none =>
    left
    rw [Node.freeSlot, Node.freeFrom, h]
    rfl
  | some m =>
    right
    have heq : x.freeSlot = m := by rw [Node.freeSlot, Node.freeFrom, h]; rfl
    have hmem := mem_of_find?_eq_some h
    have hfree := find?_some h
    rw [mem_range'_1] at hmem
    rw [heq]
    exact ⟨by omega, decide_eq_true_eq.mp hfree⟩

theorem freeSlot_le : x.freeSlot ≤ x.entries := by
  rcases freeSlot_spec (x := x) with h | ⟨h, _⟩
  · exact le_of_eq h
  · exact le_of_lt h

end Entries

/-! ## Slots that hold a known node -/

/-- Slot `k` is valid and holds inode `i`, which is the node `x`. -/
structure At (sb : Superblock) (s : LState) (k : Fin NINODE) (i : Nat) (x : Node) : Prop where
  inum : (s.mem.icache k).inum = i
  valid : (s.mem.icache k).valid = true
  din : (s.mem.icache k).din = dino sb s.view i
  node : nodes sb s.view i = some x

section Scan

variable {sb : Superblock} {s : LState} {dp : Fin NINODE} {d : Nat} {x : Node} {W : Set Nat}
  {N : Prop} {H : Fin NINODE → Nat} {name : List UInt8} {k : Nat}

section

variable (h : At sb s dp d x)
include h

theorem At.type : (s.mem.icache dp).din.type = x.type := by
  rw [h.din, (nodesOf_some h.node).2.1]

theorem At.nlink : (s.mem.icache dp).din.nlink = x.nlink := by
  rw [h.din, (nodesOf_some h.node).2.2.1]

theorem At.size : (s.mem.icache dp).din.size.toNat = x.size := by
  rw [h.din, (nodesOf_some h.node).2.2.2.1]

theorem At.alloc : (dino sb s.view d).type ≠ 0 := (nodesOf_some h.node).1

theorem At.notDev (hx : x.type = T_DIR) : (dino sb s.view d).type ≠ T_DEV := by
  rw [← h.din, h.type, hx]
  decide

end

/-- A read of one entry. -/
theorem readEntry_does (hd : Disk sb s.view) (hat : At sb s dp d x) (hx : x.type = T_DIR) (hk : 16 * k < x.size) :
    Does W N (fun r s' => s' = s ∧ (r.1 = 16 → k < x.entries ∧ direntOf r.2 = x.entry k))
      (readi dp (ofNat (16 * k)) 16) s := by
  refine does_mono (readi_does hat.din.symm hat.alloc (hat.notDev hx) (hd.whole d)) ?_
  rintro r s' ⟨rfl, hr⟩
  refine ⟨rfl, fun h16 => ?_⟩
  have hsize : (dino sb s'.view d).size.toNat = x.size := by rw [← hat.din]; exact hat.size
  have hoff : (ofNat (16 * k)).toNat = 16 * k := by
    rw [toNat_ofNat']
    have := (dino sb s'.view d).size.toNat_lt
    omega
  rw [readResult] at hr
  by_cases hbad : (dino sb s'.view d).size < ofNat (16 * k) ∨ ofNat (16 * k) + 16 < ofNat (16 * k)
  · rw [if_pos hbad] at hr
    rw [hr] at h16
    exact absurd h16 (by decide)
  · rw [if_neg hbad] at hr
    have hle := readLen_le (fun h => hbad (.inl h)) (fun h => hbad (.inr h))
    have hlen : (readLen (dino sb s'.view d).size (ofNat (16 * k)) 16).toNat = 16 := by
      rw [hr] at h16
      exact Int.ofNat.inj h16
    rw [hr, hlen, hoff]
    refine ⟨by rw [Node.entries]; omega, getDirent_congr fun j hj => ?_⟩
    rw [(nodesOf_some hat.node).2.2.2.2]
    rw [getD_eq_getElem?_getD, getElem?_map, getElem?_range hj]
    rfl

/-! ## `dirlookup` -/

/-- The entries of a directory name inodes of the table. -/
def DirOk (sb : Superblock) (x : Node) : Prop :=
  ∀ k, k < x.entries → (x.entry k).inum.toNat < sb.ninodes

/-- What `dirlookup` returns when it starts at entry `k`. -/
def Looked (sb : Superblock) (N : Prop) (H : Fin NINODE → Nat) (s : LState) (x : Node)
    (name : List UInt8) (k : Nat) : Option (Fin NINODE × Nat) → LState → Prop
  | none, s' => s' = s ∧ x.lookupFrom name k = none
  | some r, s' => ∃ m, x.lookupFrom name k = some m ∧ r.2 = 16 * m ∧
      Got sb N H s (x.entry m).inum.toNat r.1 s'

theorem looked_step {r : Option (Fin NINODE × Nat)} {s' : LState} (h : x.lookupFrom name k = x.lookupFrom name (k + 1))
    (hl : Looked sb N H s x name (k + 1) r s') : Looked sb N H s x name k r s' := by
  cases r with
  | none => exact ⟨hl.1, h.trans hl.2⟩
  | some y =>
    obtain ⟨m, hm, hrest⟩ := hl
    exact ⟨m, h.trans hm, hrest⟩

theorem dirlookupLoop_does (hd : Disk sb s.view) (h : Cache sb N H s) (hdp : 0 < H dp)
    (hat : At sb s dp d x) (hx : x.type = T_DIR) (hok : DirOk sb x)
    (hlive : ¬ N → ∀ k, k < x.entries → (x.entry k).inum ≠ 0 →
      (dino sb s.view (x.entry k).inum.toNat).type ≠ 0) : ∀ r k, x.entries ≤ k + r →
    Does W N (Looked sb N H s x name k) (dirlookupLoop dp name r (16 * k)) s := by
  intro r
  induction r with
  | zero => intro k hr; exact does_pure ⟨rfl, lookupFrom_end hr⟩
  | succ r ih =>
    intro k hr
    refine does_getInode ?_
    rw [hat.size, h.dev dp hdp]
    split
    · next hlt =>
      refine does_seq (readEntry_does hd hat hx hlt) ?_
      rintro r1 s1 ⟨rfl, hread⟩
      split
      · exact does_kpanic (by decide)
      · next h16 =>
        obtain ⟨hk, hent⟩ := hread (not_not.mp h16)
        rw [hent]
        have hnext : 16 * k + 16 = 16 * (k + 1) := by omega
        split_ifs with h0 hn
        · exact does_mono (ih (k + 1) (by omega))
            fun r s2 => looked_step (lookupFrom_miss hk (by simp [Node.hasName, h0]))
        · have hpos : 1 ≤ (x.entry k).inum.toNat := Nat.pos_of_ne_zero fun hz => h0 (UInt16.toNat.inj hz)
          refine does_seq (iget_does h hpos (hok k hk) fun hN => hlive hN k hk h0) ?_
          intro l s2 hgot
          exact does_pure ⟨k, lookupFrom_hit hk (by simp [Node.hasName, h0, hn]), rfl, hgot⟩
        · exact does_mono (ih (k + 1) (by omega))
            fun r s2 => looked_step (lookupFrom_miss hk (by simp [Node.hasName, hn]))
    · exact does_pure ⟨rfl, lookupFrom_end (by rw [Node.entries]; omega)⟩

/-- **`dirlookup`** finds the first live entry of the name, and gets its inode. -/
theorem dirlookup_does (hd : Disk sb s.view) (h : Cache sb N H s) (hdp : 0 < H dp)
    (hat : At sb s dp d x) (hok : x.type = T_DIR → DirOk sb x)
    (hlive : ¬ N → x.type = T_DIR → ∀ k, k < x.entries → (x.entry k).inum ≠ 0 →
      (dino sb s.view (x.entry k).inum.toNat).type ≠ 0) :
    Does W N (fun r s' => x.type = T_DIR ∧ Looked sb N H s x name 0 r s') (dirlookup dp name) s := by
  refine does_getInode ?_
  rw [hat.type, hat.size]
  by_cases hx : x.type = T_DIR
  · rw [if_neg (not_not.mpr hx)]
    refine does_mono (dirlookupLoop_does hd h hdp hat hx (hok hx) (fun hN => hlive hN hx) _ 0 ?_) ?_
    · rw [Node.entries]
      omega
    · exact fun r s' hl => ⟨hx, hl⟩
  · rw [if_pos hx]
    exact does_kpanic (by decide)

/-! ## `dirlink` and `isdirempty` -/

theorem dirlinkSlot_does (hd : Disk sb s.view) (hat : At sb s dp d x) (hx : x.type = T_DIR) :
    ∀ r k, x.entries + 1 ≤ k + r → k ≤ x.entries →
    Does W N (fun off s' => s' = s ∧ off = 16 * x.freeFrom k) (dirlinkSlot dp r (16 * k)) s := by
  intro r
  induction r with
  | zero => intro k hr hk; omega
  | succ r ih =>
    intro k hr hk
    refine does_getInode ?_
    rw [hat.size]
    split_ifs with hlt
    · refine does_seq (readEntry_does hd hat hx hlt) ?_
      rintro r1 s1 ⟨rfl, hread⟩
      split
      · exact does_kpanic (by decide)
      · next h16 =>
        obtain ⟨hlt', hent⟩ := hread (not_not.mp h16)
        rw [hent]
        split_ifs with h0
        · exact does_pure ⟨rfl, by rw [freeFrom_hit hlt' h0]⟩
        · rw [show 16 * k + 16 = 16 * (k + 1) by omega, freeFrom_miss hlt' h0]
          exact ih (k + 1) (by omega) hlt'
    · have hend : x.entries ≤ k := by rw [Node.entries]; omega
      exact does_pure ⟨rfl, by rw [freeFrom_end hend, le_antisymm hk hend]⟩

/-- An entry takes part of one block. -/
theorem span_entry : span (16 * k) 16 = [k / 64] := by
  unfold span BSIZE
  rw [if_neg (by decide), show (16 * k + 16 - 1) / 1024 - 16 * k / 1024 + 1 = 1 by omega,
    show 16 * k / 1024 = k / 64 by omega]
  rfl

/-- A write of entry `k` of a directory. -/
theorem writeEntry_does (hd : Disk sb s.view) (hsb : s.mem.sb = sb) (hat : At sb s dp d x)
    (hx : x.type = T_DIR) (hk : k ≤ x.entries) {e : Dirent}
    (hroom : Room W sb s.view (dino sb s.view) d [k / 64]) (hWi : IBLOCK d sb ∈ W) :
    Does W N (fun r s' => r = 16 → Changes sb s dp d (some (x.setEntry k e)) s')
      (writei dp e.byte (ofNat (16 * k)) 16) s := by
  have hoff : (ofNat (16 * k)).toNat = 16 * k := by
    have h1 := (s.mem.icache dp).din.size.toNat_lt
    rw [hat.size] at h1
    rw [toNat_ofNat']
    rw [Node.entries] at hk
    omega
  refine does_mono (writei_does hsb hat.inum hat.din.symm hat.alloc (hat.notDev hx) ?_ hWi hd) ?_
  · intro _
    rw [hoff, show (16 : UInt32).toNat = 16 from rfl, span_entry]
    exact hroom
  · rintro r s' (⟨_, rfl, _⟩ | ⟨_, _, y, hy, hc⟩) h16
    · exact absurd h16 (by decide)
    · rw [hat.node] at hy
      cases hy
      rw [hoff] at hc
      exact hc

/-- The storing half of `dirlink` enters the name in the free slot. -/
theorem dirlinkStore_does (hd : Disk sb s.view) (hsb : s.mem.sb = sb) (hat : At sb s dp d x)
    (hx : x.type = T_DIR) {n : Nat}
    (hroom : Room W sb s.view (dino sb s.view) d [x.freeSlot / 64]) (hWi : IBLOCK d sb ∈ W) :
    Does W N (fun (r : Int) s' => r = 0 ∧ Changes sb s dp d
        (some (x.setEntry x.freeSlot ⟨UInt16.ofNat n, strncpyName name⟩)) s') (dirlinkStore dp name n) s := by
  refine does_getInode ?_
  rw [hat.size]
  refine does_seq (dirlinkSlot_does hd hat hx (x.size / 16 + 1) 0 ?_ (Nat.zero_le _)) ?_
  · rw [Node.entries]; omega
  · rintro off s1 ⟨rfl, rfl⟩
    refine does_seq (writeEntry_does hd hsb hat hx freeSlot_le hroom hWi) ?_
    intro r s2 hc
    split_ifs with h16
    · exact does_kpanic (by decide)
    · exact does_pure ⟨rfl, hc (not_not.mp h16)⟩

theorem isdiremptyLoop_does (hd : Disk sb s.view) (hat : At sb s dp d x) (hx : x.type = T_DIR) :
    ∀ r k, x.entries ≤ k + r →
    Does W N (fun b s' => s' = s ∧ (b = true → ∀ m, k ≤ m → m < x.entries → (x.entry m).inum = 0))
      (isdiremptyLoop dp r (16 * k)) s := by
  intro r
  induction r with
  | zero =>
    intro k hr
    refine does_pure ⟨rfl, fun _ m h1 h2 => ?_⟩
    omega
  | succ r ih =>
    intro k hr
    refine does_getInode ?_
    rw [hat.size]
    split_ifs with hlt
    · refine does_seq (readEntry_does hd hat hx hlt) ?_
      rintro r1 s1 ⟨rfl, hread⟩
      split
      · exact does_kpanic (by decide)
      · next h16 =>
        obtain ⟨_, hent⟩ := hread (not_not.mp h16)
        rw [hent]
        split_ifs with h0
        · exact does_pure ⟨rfl, nofun⟩
        · refine does_mono (ih (k + 1) (by omega)) ?_
          rintro b s2 ⟨rfl, hall⟩
          refine ⟨rfl, fun hb m h1 h2 => ?_⟩
          rcases eq_or_lt_of_le h1 with rfl | h3
          · exact not_not.mp h0
          · exact hall hb m h3 h2
    · refine does_pure ⟨rfl, fun _ m h1 h2 => ?_⟩
      rw [Node.entries] at h2
      omega

/-- **`isdirempty`** answers yes only if no entry after "." and ".." is live. -/
theorem isdirempty_does (hd : Disk sb s.view) (hat : At sb s dp d x) (hx : x.type = T_DIR) :
    Does W N (fun b s' => s' = s ∧ (b = true → ∀ m, 2 ≤ m → m < x.entries → (x.entry m).inum = 0))
      (isdirempty dp) s := by
  refine does_getInode ?_
  rw [hat.size]
  refine isdiremptyLoop_does hd hat hx (x.size / 16 + 1) 2 ?_
  rw [Node.entries]
  omega

end Scan

end Xv6Own
