import Xv6.InterleaveProofs
import Xv6.NodeTableProofs
import Xv6.SysfileCodeProofs

/-!
# Open files on regular files — `filewrite`, `fileread`, `sys_open` and `sys_lseek`

A regular file is a list of bytes here, and `writei` overwrites a range of it: `content_write` is
the step from the nodes on the disk to these lists. An open file is a `struct file`, with an
offset of its own into a file that other open files may share.

`sys_lseek` past the end of a file takes a page of zeros from `kalloc` and calls `filewrite` on it,
with the number of bytes that are missing; the memory that follows the page is an argument, since
`filewrite` reads it when more than a page is missing. If `kalloc` finds no page, the code goes on
with a null pointer and panics in `kfree`.

A call is one step here. `fileread` and `filewrite` move the offset under the lock of the inode, but `sys_lseek` stores it
without the lock, so that a run of these steps is a run of the code in which calls on one open file do not overlap. There
is a free block for every block that a file grows by.
-/

namespace Xv6Open

open Xv6Disk Xv6Kernel Xv6Fs Xv6Own Xv6Sys Function List Option Relation

/-! ## Overwriting a range of a list -/

section Overwrite

variable {α : Type}

/-- The list with the elements from `off` on replaced by `src`. -/
def overwrite (d : List α) (off : Nat) (src : List α) : List α :=
  d.take off ++ src ++ d.drop (off + src.length)

variable {d a b src : List α} {off : Nat}

theorem length_overwrite (h : off ≤ d.length) : (overwrite d off src).length = max d.length (off + src.length) := by
  rw [overwrite, length_append, length_append, length_take, length_drop]
  omega

theorem overwrite_nil : overwrite d off [] = d := by
  rw [overwrite, append_nil, length_nil, add_zero, take_append_drop]

theorem getElem?_overwrite_before (h : off ≤ d.length) {j : Nat} (hj : j < off) :
    (overwrite d off src)[j]? = d[j]? := by
  have hlen : (d.take off).length = off := by rw [length_take]; omega
  rw [overwrite, append_assoc, getElem?_append_left (by omega), getElem?_take_of_lt hj]

theorem getElem?_overwrite_in (h : off ≤ d.length) {j : Nat} (hj : j < src.length) :
    (overwrite d off src)[off + j]? = src[j]? := by
  have hlen : (d.take off).length = off := by rw [length_take]; omega
  rw [overwrite, append_assoc, getElem?_append_right (by omega), hlen, Nat.add_sub_cancel_left, getElem?_append_left hj]

theorem getElem?_overwrite_after (h : off ≤ d.length) {j : Nat} (hj : off + src.length ≤ j) :
    (overwrite d off src)[j]? = d[j]? := by
  have hlen : (d.take off ++ src).length = off + src.length := by
    rw [length_append, length_take]; omega
  rw [overwrite, getElem?_append_right (by omega), hlen, getElem?_drop]
  congr 1
  omega

/-- Two writes, the second where the first one ended. -/
theorem overwrite_append (h : off ≤ d.length) :
    overwrite (overwrite d off a) (off + a.length) b = overwrite d off (a ++ b) := by
  have hlen : off + a.length ≤ (overwrite d off a).length := by
    rw [length_overwrite h]; omega
  refine ext_getElem? fun j => ?_
  by_cases h1 : j < off
  · rw [getElem?_overwrite_before hlen (by omega), getElem?_overwrite_before h h1, getElem?_overwrite_before h h1]
  · obtain ⟨k, rfl⟩ := Nat.le.dest (not_lt.mp h1)
    by_cases h2 : k < a.length
    · rw [getElem?_overwrite_before hlen (by omega), getElem?_overwrite_in h h2,
        getElem?_overwrite_in h (by rw [length_append]; omega), getElem?_append_left h2]
    · obtain ⟨m, rfl⟩ := Nat.le.dest (not_lt.mp h2)
      rw [← add_assoc]
      by_cases h3 : m < b.length
      · rw [getElem?_overwrite_in hlen h3, add_assoc, getElem?_overwrite_in h (by rw [length_append]; omega),
          getElem?_append_right (Nat.le_add_right _ _), Nat.add_sub_cancel_left]
      · rw [getElem?_overwrite_after hlen (by omega), getElem?_overwrite_after h (by omega),
          getElem?_overwrite_after h (by rw [length_append]; omega)]

end Overwrite

/-! ## Nodes as lists of bytes -/

/-- The bytes of a node, up to its size. -/
def content (x : Node) : List UInt8 := (range x.size).map x.bytes

theorem length_content (x : Node) : (content x).length = x.size := by
  rw [content, length_map, length_range]

theorem getElem?_content {x : Node} {j : Nat} (hj : j < x.size) : (content x)[j]? = some (x.bytes j) := by
  rw [content, getElem?_map, getElem?_range hj]
  rfl

/-- **A write to a node overwrites the range of its list of bytes.** -/
theorem content_write {x : Node} {off k : Nat} (src : Nat → UInt8) (h : off ≤ x.size) :
    content (x.write off k src) = overwrite (content x) off ((range k).map src) := by
  have hoff : off ≤ (content x).length := by rw [length_content]; exact h
  have hlen : ((range k).map src).length = k := by rw [length_map, length_range]
  have hsize : (x.write off k src).size = max x.size (off + k) := rfl
  have hbytes : ∀ j, (x.write off k src).bytes j = if off ≤ j ∧ j < off + k then src (j - off) else x.bytes j :=
    fun _ => rfl
  refine ext_getElem? fun j => ?_
  by_cases hj : j < max x.size (off + k)
  · rw [getElem?_content (hsize ▸ hj), hbytes]
    by_cases hbefore : j < off
    · rw [getElem?_overwrite_before hoff hbefore, if_neg (by omega), getElem?_content (by omega)]
    · by_cases hin : j < off + k
      · obtain ⟨m, rfl⟩ := Nat.le.dest (not_lt.mp hbefore)
        rw [getElem?_overwrite_in hoff (by rw [hlen]; omega), if_pos ⟨not_lt.mp hbefore, hin⟩, getElem?_map,
          getElem?_range (by omega), Nat.add_sub_cancel_left]
        rfl
      · rw [getElem?_overwrite_after hoff (by rw [hlen]; omega), if_neg fun hc => hin hc.2, getElem?_content (by omega)]
  · rw [getElem?_eq_none (by rw [length_content, hsize]; omega),
      getElem?_eq_none (by rw [length_overwrite hoff, length_content, hlen]; omega)]

/-! ## `writei` and `filewrite` -/

/-- The largest file. -/
def limit : Nat := MAXFILE * BSIZE

/-- `writei`, with `none` where it returns -1. -/
def writei (d : List UInt8) (off : Nat) (src : List UInt8) : Option (List UInt8) :=
  if d.length < off ∨ limit < off + src.length then none else some (overwrite d off src)

/-- What `filewrite` leaves: the bytes of the file, the offset, and whether everything was
    written. -/
structure Written where
  data : List UInt8
  off : Nat
  done : Bool
deriving DecidableEq

/-- The loop of `filewrite`, with the bytes that are left. -/
def filewriteLoop : (rounds : Nat) → (d : List UInt8) → (off : Nat) → (src : List UInt8) → Written
  | 0, d, off, src => ⟨d, off, src.isEmpty⟩
  | k + 1, d, off, src =>
    if src = [] then ⟨d, off, true⟩
    else
      match writei d off (src.take filewriteMax) with
      | none => ⟨d, off, false⟩
      | some d' =>
        filewriteLoop k d' (off + (src.take filewriteMax).length) (src.drop filewriteMax)

/-- `filewrite` through a writable descriptor. -/
def filewrite (d : List UInt8) (off : Nat) (src : List UInt8) : Written :=
  filewriteLoop src.length d off src

section Filewrite

variable {d src : List UInt8} {off : Nat}

theorem filewriteMax_pos : 0 < filewriteMax := by decide

theorem filewriteLoop_spec (rounds : Nat) (d : List UInt8) (off : Nat) (src : List UInt8)
    (hlen : src.length ≤ rounds) (hoff : off ≤ d.length) : ∃ k, k ≤ src.length ∧ (k = 0 ∨ off + k ≤ limit) ∧
      (off + min src.length filewriteMax ≤ limit → min src.length filewriteMax ≤ k) ∧
      (off + src.length ≤ limit → k = src.length) ∧
      filewriteLoop rounds d off src = ⟨overwrite d off (src.take k), off + k, decide (k = src.length)⟩ := by
  induction rounds generalizing d off src with
  | zero =>
    obtain rfl : src = [] := eq_nil_of_length_eq_zero (by omega)
    refine ⟨0, by simp, .inl rfl, by simp, fun _ => rfl, ?_⟩
    rw [filewriteLoop, take_nil, overwrite_nil]
    rfl
  | succ rounds ih =>
    rw [filewriteLoop]
    by_cases hnil : src = []
    · subst hnil
      refine ⟨0, by simp, .inl rfl, by simp, fun _ => rfl, ?_⟩
      rw [if_pos rfl, take_nil, overwrite_nil]
      rfl
    · have hpos : 0 < src.length := length_pos_iff.mpr hnil
      have hmax := filewriteMax_pos
      have htake : (src.take filewriteMax).length = min filewriteMax src.length := length_take
      rw [if_neg hnil, writei]
      by_cases hbad : d.length < off ∨ limit < off + (src.take filewriteMax).length
      · -- the chunk does not fit
        have hfit : limit < off + (src.take filewriteMax).length := by
          rcases hbad with h | h
          · omega
          · exact h
        rw [if_pos hbad]
        refine ⟨0, Nat.zero_le _, .inl rfl, fun h => ?_, fun h => ?_, ?_⟩
        · omega
        · omega
        · rw [take_zero, overwrite_nil]
          have : ¬ 0 = src.length := by omega
          rw [decide_eq_false this, add_zero]
      · rw [if_neg hbad]
        have hlen' : (src.drop filewriteMax).length ≤ rounds := by rw [length_drop]; omega
        have hoff' : off + (src.take filewriteMax).length
            ≤ (overwrite d off (src.take filewriteMax)).length := by
          rw [length_overwrite hoff]; omega
        obtain ⟨k, hk, hlim, -, hall, heq⟩ := ih _ _ _ hlen' hoff'
        rw [length_drop] at hk hall
        refine ⟨(src.take filewriteMax).length + k, by omega, by omega, fun h => by omega, fun h => ?_, ?_⟩
        · omega
        · show filewriteLoop rounds _ _ _ = _
          rw [heq, overwrite_append hoff]
          have hsplit : src.take filewriteMax ++ (src.drop filewriteMax).take k
              = src.take ((src.take filewriteMax).length + k) := by
            by_cases hshort : src.length ≤ filewriteMax
            · rw [take_of_length_le hshort, drop_eq_nil_of_le hshort, take_nil,
                append_nil, take_of_length_le (by omega)]
            · rw [htake, min_eq_left (by omega), take_add]
          have hdone : (k = (src.drop filewriteMax).length) ↔ ((src.take filewriteMax).length + k = src.length) := by
            rw [length_drop]
            omega
          rw [hsplit, add_assoc, decide_eq_decide.mpr hdone]

/-- **`filewrite`** writes the first `k` bytes at the offset, and all of them if they fit. -/
theorem filewrite_spec (src : List UInt8) (hoff : off ≤ d.length) : ∃ k, k ≤ src.length ∧ (k = 0 ∨ off + k ≤ limit) ∧
      (off + min src.length filewriteMax ≤ limit → min src.length filewriteMax ≤ k) ∧
      (off + src.length ≤ limit → k = src.length) ∧
      filewrite d off src = ⟨overwrite d off (src.take k), off + k, decide (k = src.length)⟩ :=
  filewriteLoop_spec src.length d off src (le_refl _) hoff

/-- What `filewrite` leaves behind: the bytes before the offset as they were, and the new
    offset inside the file. -/
theorem filewrite_keeps (src : List UInt8) (hoff : off ≤ d.length) :
    (∀ j, j < off → (filewrite d off src).data[j]? = d[j]?) ∧
    off ≤ (filewrite d off src).off ∧ (filewrite d off src).off ≤ (filewrite d off src).data.length ∧
    d.length ≤ (filewrite d off src).data.length ∧ (d.length ≤ limit → (filewrite d off src).data.length ≤ limit) := by
  obtain ⟨k, hk, hlim, -, -, heq⟩ := filewrite_spec src hoff
  have hlen : (src.take k).length = k := by rw [length_take]; omega
  rw [heq]
  refine ⟨fun j hj => getElem?_overwrite_before hoff hj, Nat.le_add_right _ _, ?_, ?_, ?_⟩
  · show off + k ≤ (overwrite d off (src.take k)).length
    rw [length_overwrite hoff]; omega
  · show d.length ≤ (overwrite d off (src.take k)).length
    rw [length_overwrite hoff]; omega
  · intro hd
    rw [length_overwrite hoff]; omega

end Filewrite

/-! ## `sys_lseek` -/

/-- The bytes that `filewrite` finds at the zeroed page and after it. -/
def zeroed (after : Nat → UInt8) (z : Nat) : List UInt8 :=
  (range z).map fun j => if j < PGSIZE then 0 else after (j - PGSIZE)

/-- The loop of `sys_lseek`: all that is missing is written, one page less each round. -/
def lseekFill (after : Nat → UInt8) :
    (rounds : Nat) → (d : List UInt8) → (off : Nat) → (zerosize : Int) → List UInt8 × Nat
  | 0, d, off, _ => (d, off)
  | k + 1, d, off, zerosize =>
    if 0 < zerosize then
      let w := filewrite d off (zeroed after zerosize.toNat)
      lseekFill after k w.data w.off (zerosize - PGSIZE)
    else (d, off)

/-- `newoff`, a signed 32-bit number; `uninit` is its value when `base` is none of the three. -/
def lseekTarget (off size : Nat) (offset base uninit : Int32) : Int :=
  if base = SEEK_SET then offset.toInt
  else if base = SEEK_CUR then (Int32.ofNat off + offset).toInt
  else if base = SEEK_END then (Int32.ofNat size + offset).toInt
  else uninit.toInt

/-- What `sys_lseek` returns and leaves. -/
structure Sought where
  ret : Int
  data : List UInt8
  off : Nat
deriving DecidableEq

/-- `sys_lseek` on a file with the bytes `d`. `page` is what `kalloc` finds: nothing, and then the
    call ends in the panic of `kfree`, or a page with the bytes `after` behind it. -/
def sysLseek (writable : Bool) (page : Option (Nat → UInt8)) (d : List UInt8) (off : Nat)
    (offset base uninit : Int32) : Option Sought :=
  let newoff := lseekTarget off d.length offset base uninit
  if newoff < 0 then some ⟨EINVAL, d, off⟩
  else if d.length < newoff.toNat then
    match page with
    | none => none
    | some after =>
      let zerosize := newoff - d.length
      -- `filewrite` returns at once when the file is not writable
      let x := if writable = true then lseekFill after zerosize.toNat d off zerosize else (d, off)
      some ⟨newoff, x.1, newoff.toNat⟩
  else some ⟨newoff, d, newoff.toNat⟩

section Lseek

variable {d : List UInt8} {off : Nat} {after : Nat → UInt8}

end Lseek

/-! ## Calls on any number of open files -/

/-- `struct file`, of type `FD_INODE` -/
structure OpenFile (I : Type) where
  ip : I
  off : Nat
  readable : Bool
  writable : Bool

/-- The regular files that exist, and the entries of `ftable` in use. -/
structure Sys (F I : Type) where
  data : I → Option (List UInt8)
  file : F → Option (OpenFile I)

/-- A call by some process. In `open`, `i` is the inode that the path stands for and `f` the entry
    that `filealloc` looks at. -/
inductive Call (F I : Type) where
  | open (f : F) (i : I) (omode : UInt32)
  | read (f : F) (n : UInt32)
  | write (f : F) (src : List UInt8)
  | lseek (f : F) (offset base uninit : Int32) (page : Option (Nat → UInt8))

/-- `readi`, with `none` where it returns -1. -/
def readi (d : List UInt8) (off n : Nat) : Option (List UInt8) :=
  if d.length < off ∨ 2 ^ 32 ≤ off + n then none else some ((d.drop off).take n)

variable {F I : Type} [DecidableEq F] [DecidableEq I]

/-- The bytes of file `i`, and the entry `f`, become others. -/
def Sys.put (s : Sys F I) (f : F) (x : OpenFile I) (d : List UInt8) : Sys F I where
  data := update s.data x.ip (some d)
  file := update s.file f (some x)

/-- The end of `sys_open`, with the inode found: `filealloc`, `itrunc`, and the fields of the
    entry. -/
def openEntry (s : Sys F I) (f : F) (i : I) (omode : UInt32) (d : List UInt8) : Sys F I :=
  match s.file f with
  | some _ => s
  | none =>
    let d' := if omode &&& O_TRUNC ≠ 0 then [] else d
    s.put f
      { ip := i
        off := if omode &&& O_APPEND ≠ 0 then d'.length else 0
        readable := omode &&& O_WRONLY = 0
        writable := omode &&& O_WRONLY ≠ 0 ∨ omode &&& O_RDWR ≠ 0 } d'

/-- One call; `none` is a panic. -/
def step (s : Sys F I) : Call F I → Option (Sys F I)
  | .open f i omode =>
    match s.data i with
    | some d => some (openEntry s f i omode d)
    | none =>
      if omode &&& O_CREATE ≠ 0 then
        some (openEntry { s with data := update s.data i (some []) } f i omode [])
      else some s
  | .read f n =>
    match s.file f with
    | none => some s
    | some x =>
      if x.readable = false then some s
      else
        match s.data x.ip with
        | none => some s
        | some d =>
          match readi d x.off n.toNat with
          | none => some s
          | some l => some (s.put f { x with off := x.off + l.length } d)
  | .write f src =>
    match s.file f with
    | none => some s
    | some x =>
      if x.writable = false then some s
      else
        match s.data x.ip with
        | none => some s
        | some d =>
          let w := filewrite d x.off src
          some (s.put f { x with off := w.off } w.data)
  | .lseek f offset base uninit page =>
    match s.file f with
    | none => some s
    | some x =>
      match s.data x.ip with
      | none => some s
      | some d =>
        (sysLseek x.writable page d x.off offset base uninit).map fun r =>
          s.put f { x with off := r.off } r.data

/-- A call that takes no offset out of its file: `O_TRUNC` on a file in which every open file is at
    the start, and a seek that stays in the file, or goes at most a page further from its end and may write. -/
def Tame (s : Sys F I) : Call F I → Prop
  | .open f i omode => omode &&& O_TRUNC ≠ 0 → s.file f = none →
      ∀ g x, s.file g = some x → x.ip = i → x.off = 0
  | .lseek f offset base uninit _ => ∀ x d, s.file f = some x → s.data x.ip = some d →
      lseekTarget x.off d.length offset base uninit ≤ d.length ∨
      (x.writable = true ∧ x.off = d.length ∧
        lseekTarget x.off d.length offset base uninit ≤ min (d.length + PGSIZE) limit)
  | _ => True

/-- Some process makes a call. -/
def Step (s s' : Sys F I) : Prop := ∃ c, step s c = some s'

/-- Every open file is on a file that exists, with its offset inside. -/
def Inside (s : Sys F I) : Prop :=
  ∀ f x, s.file f = some x → ∃ d, s.data x.ip = some d ∧ x.off ≤ d.length

section Inside

variable {s s' : Sys F I} {f : F} {x : OpenFile I} {d : List UInt8}

/-- An entry moves, and its file does not get shorter for the others. -/
theorem Inside.put (h : Inside s) (hin : x.off ≤ d.length)
    (hothers : ∀ g y e, g ≠ f → s.file g = some y → y.ip = x.ip → s.data x.ip = some e →
      y.off ≤ e.length → y.off ≤ d.length) : Inside (s.put f x d) := by
  intro g y hy
  by_cases hg : g = f
  · subst hg
    have hself : update s.file g (some x) g = some y := hy
    rw [update_self] at hself
    cases hself
    exact ⟨d, update_self _ _ _, hin⟩
  · have hy' : s.file g = some y := (update_of_ne hg _ _).symm.trans hy
    obtain ⟨e, he, hle⟩ := h g y hy'
    by_cases hip : y.ip = x.ip
    · refine ⟨d, ?_, hothers g y e hg hy' hip (hip ▸ he) hle⟩
      rw [hip]
      exact update_self _ _ _
    · exact ⟨e, (update_of_ne hip _ _).trans he, hle⟩

/-- The file gets no shorter. -/
theorem Inside.grow (h : Inside s) {e : List UInt8} (he : s.data x.ip = some e) (hin : x.off ≤ d.length)
    (hlen : e.length ≤ d.length) : Inside (s.put f x d) := by
  refine h.put hin fun g y e' _ _ _ he' hle => ?_
  obtain rfl : e = e' := some.inj (he.symm.trans he')
  exact le_trans hle hlen

theorem Inside.open (h : Inside s) {i : I} {omode : UInt32} (hd : s.data i = some d)
    (ht : Tame s (.open f i omode)) : Inside (openEntry s f i omode d) := by
  rw [openEntry]
  cases hf : s.file f with
  | some y => exact h
  | none =>
    refine h.put ?_ fun g y e hg hy hip he hle => ?_
    · -- the new entry is at the start or at the end
      by_cases happ : omode &&& O_APPEND ≠ 0
      · simp only [if_pos happ, le_refl]
      · simp only [if_neg happ, Nat.zero_le]
    · by_cases htr : omode &&& O_TRUNC ≠ 0
      · rw [ht htr hf g y hy hip]
        exact Nat.zero_le _
      · rw [if_neg htr]
        obtain rfl : d = e := some.inj (hd.symm.trans he)
        exact hle

end Inside

/-- No file open, and one inode free. -/
def empty : Sys Bool Unit := ⟨fun _ => none, fun _ => none⟩

/-- Some calls in a row. -/
def runCalls : List (Call F I) → Sys F I → Option (Sys F I)
  | [], s => some s
  | c :: l, s => (step s c).bind (runCalls l)

end Xv6Open
