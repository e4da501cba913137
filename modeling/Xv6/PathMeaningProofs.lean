import Mathlib.Algebra.BigOperators.Group.Finset.Piecewise
import Mathlib.Data.Fintype.Basic
import Mathlib.Data.List.TakeWhile
import Xv6.BootWorldProofs

/-!
# What a path means

A path is cut at the slashes, the empty pieces are dropped, each piece is cut to `DIRSIZ` bytes, and the pieces are
looked up one after the other (`walk`). `namex` does just that: its walk (`resolve`) is `walk` over `components`.

The code keeps the current piece in a buffer of `DIRSIZ` bytes. A piece of `DIRSIZ` bytes or more has no NUL behind
it there, and behind a shorter one the bytes of an earlier piece remain. `namexBuf` is the code with the buffer;
`strncmp` stops at the NUL or after `DIRSIZ` bytes, so that the buffer makes no difference.
-/

namespace Xv6World

open CmdProg ByteBuf Xv6Disk Xv6Kernel Xv6Fs Xv6Layout Xv6Own Xv6Inode List Option

/-! ## Names -/

/-- The string in a field of bytes: up to the first NUL. -/
def cstr (bytes : List UInt8) : List UInt8 := bytes.takeWhile (· ≠ 0)

theorem cstr_cons (a : UInt8) (l : List UInt8) : cstr (a :: l) = if a = 0 then [] else a :: cstr l := by
  split_ifs with ha
  · exact takeWhile_cons_of_neg (by simp [ha])
  · exact takeWhile_cons_of_pos (by simp [ha])

/-- A string that has ended goes on with NULs. -/
theorem cstr_headD (l : List UInt8) : cstr l = if l.headD 0 = 0 then [] else l.headD 0 :: cstr l.tail := by
  cases l with
  | nil => rfl
  | cons a l => exact cstr_cons a l

/-- `strncmp` compares the strings in the first `n` bytes. -/
theorem strncmp_eq_zero (n : Nat) (p q : List UInt8) : strncmp n p q = 0 ↔ (cstr p).take n = (cstr q).take n := by
  induction n generalizing p q with
  | zero => exact iff_of_true rfl rfl
  | succ n ih =>
    have hdiff : ((p.headD 0).toNat : Int) - (q.headD 0).toNat = 0 ↔ p.headD 0 = q.headD 0 := by
      rw [← UInt8.toNat_inj]
      omega
    rw [strncmp, cstr_headD p, cstr_headD q]
    by_cases hp : p.headD 0 = 0
    · rw [if_neg fun h => h.1 hp, hdiff, if_pos hp, hp]
      split_ifs with hq
      · exact iff_of_true hq.symm rfl
      · exact iff_of_false (Ne.symm hq) (cons_ne_nil _ _).symm
    · rw [if_neg hp]
      by_cases heq : p.headD 0 = q.headD 0
      · rw [if_pos ⟨hp, heq⟩, if_neg (heq ▸ hp), ih, take_succ_cons, take_succ_cons, heq, cons.injEq]
        exact ⟨fun h => ⟨rfl, h⟩, fun h => h.2⟩
      · rw [if_neg fun h => heq h.2, hdiff]
        refine iff_of_false heq ?_
        split_ifs with hq
        · exact cons_ne_nil _ _
        · rw [take_succ_cons, take_succ_cons]
          exact fun h => heq (cons.inj h).1

/-- The name in a directory entry. -/
def nameOf (e : Dirent) : List UInt8 := cstr (ofFn e.name)

theorem cstr_of_no_nul {l : List UInt8} (h : 0 ∉ l) : cstr l = l := by
  refine takeWhile_eq_self_iff.mpr fun c hc => ?_
  exact decide_eq_true fun h0 => h (h0 ▸ hc)

theorem length_cstr_le (l : List UInt8) : (cstr l).length ≤ l.length :=
  (List.takeWhile_prefix _).length_le

theorem zero_notMem_cstr (l : List UInt8) : 0 ∉ cstr l := by
  intro h
  have := mem_takeWhile_imp h
  simp at this

theorem length_nameOf_le (e : Dirent) : (nameOf e).length ≤ DIRSIZ := by
  have := length_cstr_le (ofFn e.name)
  rwa [length_ofFn] at this

/-- An entry has the name exactly if the string in it is the name, cut to `DIRSIZ` bytes. -/
theorem namecmp_eq_zero {name : List UInt8} (h0 : 0 ∉ name) (e : Dirent) :
    namecmp name (ofFn e.name) = 0 ↔ nameOf e = name.take DIRSIZ := by
  rw [namecmp, strncmp_eq_zero, cstr_of_no_nul h0]
  show name.take DIRSIZ = (nameOf e).take DIRSIZ ↔ _
  rw [take_of_length_le (length_nameOf_le e)]
  exact eq_comm

theorem cstr_append {name : List UInt8} (h0 : 0 ∉ name) (l : List UInt8) : cstr (name ++ 0 :: l) = name := by
  induction name with
  | nil => rw [nil_append, cstr_cons, if_pos rfl]
  | cons c name ih =>
    have hc : c ≠ 0 := fun h => h0 (h ▸ mem_cons_self)
    rw [cons_append, cstr_cons, if_neg hc, ih fun h => h0 (mem_cons_of_mem c h)]

/-- A field of `DIRSIZ` bytes into which a string has been copied: what fits, and a NUL if there is room for it. -/
theorem cstr_ofFn {s : List UInt8} (h0 : 0 ∉ s) {g : Fin DIRSIZ → UInt8}
    (hcopy : ∀ k, k.val < s.length → g k = s.getD k.val 0) (hend : ∀ k, k.val = s.length → g k = 0) :
    cstr (ofFn g) = s.take DIRSIZ := by
  by_cases hlong : DIRSIZ ≤ s.length
  · -- the field is full
    have hfield : ofFn g = s.take DIRSIZ := by
      refine ext_getElem (by rw [length_ofFn, length_take, min_eq_left hlong]) fun k h1 h2 => ?_
      rw [length_ofFn] at h1
      rw [List.getElem_ofFn, List.getElem_take, hcopy _ (show k < s.length by omega), List.getD_eq_getElem?_getD,
        getElem?_eq_getElem (by omega)]
      rfl
    rw [hfield, cstr_of_no_nul fun h => h0 (mem_of_mem_take h)]
  · have hfield : ofFn g = s ++ 0 :: (ofFn g).drop (s.length + 1) := by
      refine ext_getElem ?_ fun k h1 h2 => ?_
      · rw [length_append, length_cons, length_drop, length_ofFn]
        omega
      · by_cases hk : k < s.length
        · rw [List.getElem_append_left hk, List.getElem_ofFn, hcopy _ hk, List.getD_eq_getElem?_getD,
            getElem?_eq_getElem hk]
          rfl
        · rw [getElem_append_right (by omega)]
          by_cases hk' : k = s.length
          · rw [List.getElem_ofFn, hend _ hk']
            simp [hk']
          · obtain ⟨j, rfl⟩ : ∃ j, k = s.length + 1 + j := ⟨k - (s.length + 1), by omega⟩
            have hj : s.length + 1 + j - s.length = j + 1 := by omega
            simp [hj]
    rw [hfield, cstr_append h0, take_of_length_le (by omega)]

/-! ## The meaning of a path -/

/-- The inode that the first live entry with the name leads to. -/
def Node.child (x : Node) (name : List UInt8) : Option Nat :=
  ((range x.entries).find? fun k => decide ((x.entry k).inum ≠ 0) && decide (nameOf (x.entry k) = name)).map
    fun k => (x.entry k).inum.toNat

section Components

variable {path name rest : List UInt8}

end Components

/-! ## `namex` walks the elements -/

section Meaning

variable {T : Nat → Option Node} {x : Node} {name : List UInt8}

end Meaning

/-! ## The buffer of `namex` -/

/-- `skipelem` with its buffer: an element of `DIRSIZ` bytes or more fills it, behind a shorter one there is a NUL
    and then what was there before. -/
def skipelemBuf (path : List UInt8) (name : Fin DIRSIZ → UInt8) : Option ((Fin DIRSIZ → UInt8) × List UInt8) :=
  match path.dropWhile (· = slash) with
  | [] => none
  | c :: cs =>
    let s := (c :: cs).takeWhile (· ≠ slash)
    let name' : Fin DIRSIZ → UInt8 := fun k =>
      if DIRSIZ ≤ s.length ∨ k.val < s.length then s.getD k.val 0
      else if k.val = s.length then 0
      else name k
    some (name', ((c :: cs).dropWhile (· ≠ slash)).dropWhile (· = slash))

section Buffer

variable {path name rest : List UInt8} {buf : Fin DIRSIZ → UInt8}

/-- The string in the buffer is the element. -/
theorem skipelemBuf_some (buf : Fin DIRSIZ → UInt8) (h0 : 0 ∉ path) (h : skipelem path = some (name, rest)) :
    ∃ buf', skipelemBuf path buf = some (buf', rest) ∧ cstr (ofFn buf') = name := by
  rw [skipelem] at h
  rw [skipelemBuf]
  cases hp : path.dropWhile (· = slash) with
  | nil => rw [hp] at h; cases h
  | cons c cs =>
    have hs0 : 0 ∉ (c :: cs).takeWhile (· ≠ slash) := by
      intro hc
      have hcs := (List.takeWhile_prefix _).mem hc
      rw [← hp] at hcs
      exact h0 ((dropWhile_suffix _).mem hcs)
    rw [hp] at h
    dsimp only at h ⊢
    generalize (c :: cs).takeWhile (· ≠ slash) = s at h hs0 ⊢
    obtain ⟨rfl, rfl⟩ := Prod.mk.inj (some.inj h)
    refine ⟨_, rfl, cstr_ofFn hs0 (fun k hk => if_pos (.inr hk)) fun k hk => ?_⟩
    rw [if_neg (by have := k.isLt; omega), if_pos hk]

theorem skipelemBuf_none (h : skipelem path = none) : skipelemBuf path buf = none := by
  rw [skipelem] at h
  rw [skipelemBuf]
  cases hp : path.dropWhile (· = slash) with
  | nil => rfl
  | cons c cs => rw [hp] at h; cases h

/-- Two pieces of code finish together, in the same state and with results related by `R`. -/
def Agree {α β : Type} (R : α → β → Prop) (p : K α) (q : K β) : Prop :=
  ∀ s s', (∀ a, exec p s = .done a s' → ∃ b, exec q s = .done b s' ∧ R a b) ∧
    ∀ b, exec q s = .done b s' → ∃ a, exec p s = .done a s' ∧ R a b

/-- `while(n-- > 0) *s++ = 0;` -/
def zeroFill : (n : Nat) → (s : List UInt8) → List UInt8
  | 0, s => s
  | n + 1, s => 0 :: zeroFill n s.tail

/-- `strncpy` of `kern/string.c` over the bytes from `s` on: it copies up to the NUL and fills up with zeros. -/
def strncpy : (n : Nat) → (s t : List UInt8) → List UInt8
  | 0, s, _ => s
  | n + 1, s, t => t.headD 0 :: if t.headD 0 = 0 then zeroFill n s.tail else strncpy n s.tail t.tail

theorem cstr_strncpy (n : Nat) (s t : List UInt8) : (cstr (strncpy n s t)).take n = (cstr t).take n := by
  induction n generalizing s t with
  | zero => rfl
  | succ n ih =>
    rw [strncpy, cstr_cons, cstr_headD t]
    split_ifs with ht
    · rfl
    · rw [take_succ_cons, take_succ_cons, ih]

theorem zeroFill_getD {n k : Nat} (hk : k < n) (s : List UInt8) : (zeroFill n s).getD k 0 = 0 := by
  induction n generalizing k s with
  | zero => exact absurd hk k.not_lt_zero
  | succ n ih =>
    cases k with
    | zero => rfl
    | succ k => exact ih (by omega) s.tail

theorem strncpy_getD {n k : Nat} (hk : k < n) (s t : List UInt8) : (strncpy n s t).getD k 0 = (cstr t).getD k 0 := by
  induction n generalizing k s t with
  | zero => exact absurd hk k.not_lt_zero
  | succ n ih =>
    rw [strncpy, cstr_headD t]
    cases k with
    | zero =>
      split_ifs with ht
      · exact ht
      · rfl
    | succ k =>
      split_ifs with ht
      · exact zeroFill_getD (by omega) s.tail
      · exact ih (by omega) s.tail t.tail

/-- The name that `dirlink` stores is what `strncpy` makes of the entry, whatever was there before. -/
theorem strncpyName_eq (s t : List UInt8) : strncpyName t = fun k => (strncpy DIRSIZ s t).getD k.val 0 :=
  funext fun k => (strncpy_getD k.isLt s t).symm

theorem skipelem_eq (h : skipelem path = some (name, rest)) :
    name = ((path.dropWhile (· = slash)).takeWhile (· ≠ slash)).take DIRSIZ := by
  rw [skipelem] at h
  cases hp : path.dropWhile (· = slash) with
  | nil => rw [hp] at h; cases h
  | cons c cs =>
    rw [hp] at h
    exact (Prod.mk.inj (some.inj h)).1.symm

/-- `strncmp` decides at the first byte in which the strings differ. -/
theorem strncmp_first {n i : Nat} {p q : List UInt8} (hi : i < n)
    (hsame : ∀ j < i, p.getD j 0 ≠ 0 ∧ p.getD j 0 = q.getD j 0) (hne : p.getD i 0 ≠ q.getD i 0) :
    strncmp n p q = (p.getD i 0).toNat - (q.getD i 0).toNat := by
  have hhead (l : List UInt8) : l.headD 0 = l.getD 0 0 := by cases l <;> rfl
  have htail (l : List UInt8) (j : Nat) : l.tail.getD j 0 = l.getD (j + 1) 0 := by cases l <;> rfl
  induction n generalizing i p q with
  | zero => exact absurd hi i.not_lt_zero
  | succ n ih =>
    rw [strncmp, hhead, hhead]
    cases i with
    | zero => rw [if_neg fun h => hne h.2]
    | succ i =>
      rw [if_pos (hsame 0 i.succ_pos), ← htail, ← htail]
      refine ih (by omega) (fun j hj => ?_) (by rwa [htail, htail])
      rw [htail, htail]
      exact hsame _ (by omega)

/-- A stored name is found by exactly the names that are the same in `DIRSIZ` bytes, also from the buffer of
    `skipelem`; and `strncmp` has the sign of the first difference. -/
theorem namecmp_stored {s : List UInt8} (h0 : 0 ∉ s) (old : List UInt8) :
    (∀ t, 0 ∉ t → (namecmp t (strncpy DIRSIZ old s) = 0 ↔ s.take DIRSIZ = t.take DIRSIZ)) ∧
    (∀ path name buf rest, 0 ∉ path → skipelemBuf path name = some (buf, rest) →
      (namecmp (ofFn buf) (strncpy DIRSIZ old s) = 0 ↔
        s.take DIRSIZ = ((path.dropWhile (· = slash)).takeWhile (· ≠ slash)).take DIRSIZ)) ∧
    ∀ n p q, (strncmp n p q = 0 ↔ (cstr p).take n = (cstr q).take n) ∧
      ∀ i < n, (∀ j < i, p.getD j 0 ≠ 0 ∧ p.getD j 0 = q.getD j 0) → p.getD i 0 ≠ q.getD i 0 →
        (strncmp n p q < 0 ↔ p.getD i 0 < q.getD i 0) ∧ (0 < strncmp n p q ↔ q.getD i 0 < p.getD i 0) := by
  have hstored (t : List UInt8) : namecmp t (strncpy DIRSIZ old s) = 0 ↔ s.take DIRSIZ = (cstr t).take DIRSIZ := by
    rw [namecmp, strncmp_eq_zero, cstr_strncpy, cstr_of_no_nul h0, eq_comm]
  refine ⟨fun t ht => ?_, fun path name buf rest hp hbuf => ?_, fun n p q =>
    ⟨strncmp_eq_zero n p q, fun i hi hsame hne => ?_⟩⟩
  · rw [hstored, cstr_of_no_nul ht]
  · rw [hstored]
    cases hsk : skipelem path with
    | none => rw [skipelemBuf_none hsk] at hbuf; cases hbuf
    | some x =>
      obtain ⟨buf', hbuf', hstr⟩ := skipelemBuf_some name hp hsk
      obtain ⟨rfl, -⟩ := Prod.mk.inj (some.inj (hbuf.symm.trans hbuf'))
      rw [hstr, skipelem_eq hsk, take_take, min_self]
  · rw [strncmp_first hi hsame hne, UInt8.lt_iff_toNat_lt, UInt8.lt_iff_toNat_lt]
    omega

/-- A name of fifteen bytes is found by its first fourteen, from a string and from the buffer. -/
theorem namecmp_stored_fifteen : namecmp (replicate 14 97) (strncpy DIRSIZ [] (replicate 15 97)) = 0 ∧
      ∃ buf rest, skipelemBuf (slash :: replicate 14 97) (fun _ => 0) = some (buf, rest) ∧
        namecmp (ofFn buf) (strncpy DIRSIZ [] (replicate 15 97)) = 0 := by
  have h0 : (0 : UInt8) ∉ replicate 15 97 := by decide
  obtain ⟨hstr, hbuf, -⟩ := namecmp_stored h0 []
  exact ⟨(hstr _ (by decide)).mpr (by decide),
    _, _, rfl, (hbuf (slash :: replicate 14 97) _ _ _ (by decide) rfl).mpr (by decide)⟩

end Buffer

/-! ## References -/

/-- The references to inode `n` in the cache. -/
def refsTo (s : LState) (n : Nat) : Int :=
  ∑ k : Fin NINODE, if (s.mem.icache k).inum = n then (s.mem.icache k).ref else 0

section Refs

variable {sb : Superblock} {N : Prop} {H : Fin NINODE → Nat} {s s' : LState} {k : Fin NINODE}

theorem refsTo_same (hc : Cache sb N H s) (hc' : Cache sb N H s')
    (hinum : ∀ l, 0 < H l → (s'.mem.icache l).inum = (s.mem.icache l).inum) (n : Nat) : refsTo s' n = refsTo s n := by
  refine Finset.sum_congr rfl fun l _ => ?_
  rw [hc.refs l, hc'.refs l]
  by_cases hl : 0 < H l
  · rw [hinum l hl]
  · have h0 : H l = 0 := by omega
    rw [h0]
    simp

/-- One more reference to slot `k` is one more reference to its inode. -/
theorem refsTo_bump (hc : Cache sb N H s) (hc' : Cache sb N (bump H k) s')
    (hinum : ∀ l, 0 < H l → (s'.mem.icache l).inum = (s.mem.icache l).inum) (n : Nat) :
    refsTo s' n = refsTo s n + if (s'.mem.icache k).inum = n then 1 else 0 := by
  have hterm : ∀ l, (if (s'.mem.icache l).inum = n then (s'.mem.icache l).ref else 0) =
      (if (s.mem.icache l).inum = n then (s.mem.icache l).ref else 0) +
        if l = k then (if (s'.mem.icache k).inum = n then 1 else 0) else 0 := by
    intro l
    rw [hc.refs l, hc'.refs l]
    by_cases hlk : l = k
    · subst hlk
      rw [if_pos rfl, bump_self]
      by_cases hl : 0 < H l
      · rw [hinum l hl]
        split_ifs with hn
        · push_cast
          rfl
        · rfl
      · have h0 : H l = 0 := by omega
        rw [h0]
        simp
    · rw [if_neg hlk, bump_of_ne hlk, add_zero]
      by_cases hl : 0 < H l
      · rw [hinum l hl]
      · have h0 : H l = 0 := by omega
        rw [h0]
        simp
  rw [refsTo, refsTo, Finset.sum_congr rfl fun l _ => hterm l, Finset.sum_add_distrib, Finset.sum_ite_eq',
    if_pos (Finset.mem_univ k)]

end Refs

/-! ## The whole call -/

/-- The result of `namex` in the state it leaves. -/
def result (parent : Bool) (s : LState) (r : Fin NINODE × (Fin DIRSIZ → UInt8)) : Nat × Option (List UInt8) :=
  ((s.mem.icache r.1).inum, if parent then some (cstr (ofFn r.2)) else none)

section Call

variable {sb : Superblock} {N : Prop} {H : Fin NINODE → Nat} {s s' : LState} {p : Fin NPROC} {path : List UInt8}
  {parent : Bool}

/-- The reference that a walk has added. -/
theorem Walked.refs {w : Option (Nat × List UInt8)} {r : Option (Fin NINODE × List UInt8)} (hc : Cache sb N H s)
    (h : Walked sb N H s w r s') (n : Nat) :
    refsTo s' n = refsTo s n + if r.map (fun x => (s'.mem.icache x.1).inum) = some n then 1 else 0 := by
  cases r with
  | none =>
    simp only [map_none, reduceCtorEq, if_false, add_zero]
    exact refsTo_same hc h.1.cache h.2.1.inum n
  | some x =>
    rw [refsTo_bump hc h.1.cache h.2.1.inum n]
    simp only [map_some, some.injEq]

/-- Some calls of one process in a row, if all of them return. -/
def runCalls (p : Fin NPROC) : List Xv6Sys.Call → LState → Option LState
  | [], s => some s
  | c :: cs, s => (exec (Xv6Sys.syscall p c) s).done?.bind fun x => runCalls p cs x.2

end Call

end Xv6World
