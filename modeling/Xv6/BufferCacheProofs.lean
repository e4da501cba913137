import Mathlib.Data.List.Perm.Subperm
import Xv6.LogicalDiskProofs
import Xv6.RedoLogProofs

/-!
# The buffer cache and the disk driver — `bio.c` and `ide.c`

The second machine for kernel code. A disk is a function from block numbers to blocks, and
changes only by single-block writes; the machine keeps the disk it booted with (`base`) and
the list of all writes since (`writes`), so that a power cut is a prefix of that list.
Between the code and the disk stands the buffer cache, a list of `NBUF` buffers, the most
recently used first, with the flags `B_BUSY`, `B_VALID` and `B_DIRTY`.

What the code above needs to know of all this is `Cached`: under it the machine looks like
a disk with an overlay `m` of changed blocks, a set `H` of blocks that are held and a set
`P` of blocks that are pinned by `B_DIRTY`. Each function of `bio.c` then has one
specification over `(m, H, P)`, and no later proof looks at the list of buffers.
-/

namespace Xv6Buf

open CmdProg ByteBuf Xv6Disk Xv6Kernel RedoLog Function List

/-- `struct buf`. `blockno = none` is a buffer that has never been used (`dev = -1`). -/
structure Buf where
  blockno : Option Nat
  busy : Bool
  valid : Bool
  dirty : Bool
  data : Block

/-- `struct log` without its lock: `lh` lists `lh.block[0..n)`. -/
structure Log where
  start : Nat
  size : Nat
  outstanding : Int
  committing : Bool
  lh : List Nat

/-- The state of the physical machine. -/
structure HState where
  base : Nat → Block
  writes : List (Nat × Block)
  bcache : List Buf
  log : Log

/-- Code of the physical machine. -/
abbrev HCode := Code Stop HState

def hstop {α : Type} (e : Stop) : HCode α := fun h => .stop e h

/-- The disk as it is now. -/
def HState.disk (h : HState) : Nat → Block := applyW h.writes h.base

/-- The buffer is one for block `b`. -/
def Buf.isFor (b : Nat) (x : Buf) : Bool := decide (x.blockno = some b)

/-- The first loop of `bget`: is the block cached? -/
def lookup (b : Nat) (c : List Buf) : Option Buf := c.find? (Buf.isFor b)

/-- Change the buffer of block `b`. -/
def modBuf (b : Nat) (f : Buf → Buf) (c : List Buf) : List Buf :=
  c.map (fun x => if Buf.isFor b x then f x else x)

/-- The second loop of `bget`: the least recently used buffer that is neither busy nor
    dirty becomes the buffer of block `b`, with `B_BUSY` as its only flag. -/
def recycle (b : Nat) : List Buf → Option (List Buf)
  | [] => none
  | x :: xs =>
    match recycle b xs with
    | some xs' => some (x :: xs')
    | none =>
      if x.busy = false ∧ x.dirty = false then
        some ({ x with blockno := some b, busy := true, valid := false } :: xs)
      else none

def bget (b : Nat) : HCode Unit := fun h =>
  match lookup b h.bcache with
  | some x =>
    if x.busy then .stop .blocked h
    else .done () { h with bcache := modBuf b (fun x => { x with busy := true }) h.bcache }
  | none =>
    match recycle b h.bcache with
    | some c => .done () { h with bcache := c }
    | none => .stop (.panic "bget: no buffers") h

/-- Code that uses the buffer of block `b`. -/
def withBuf {α : Type} (b : Nat) (f : Buf → HState → Out Stop HState α) : HCode α := fun h =>
  match lookup b h.bcache with
  | some x => f x h
  | none => .stop (.outside "no such buffer") h

/-- `iderw` with the driver behind it: a dirty buffer is written to the disk, another one
    is read from it. -/
def iderw (b : Nat) : HCode Unit := withBuf b fun x h =>
  if x.busy = false then .stop (.panic "iderw: buf not busy") h
  else if x.valid = true ∧ x.dirty = false then .stop (.panic "iderw: nothing to do") h
  else if FSSIZE ≤ b then .stop (.panic "incorrect blockno") h
  else if x.dirty then
    .done () { h with
      writes := h.writes ++ [(b, x.data)]
      bcache := modBuf b (fun x => { x with valid := true, dirty := false }) h.bcache }
  else
    .done () { h with
      bcache := modBuf b (fun x => { x with valid := true, data := h.disk b }) h.bcache }

def getBuf (b : Nat) : HCode Buf := withBuf b fun x h => .done x h

/-- The data of the buffer of block `b`. -/
def bdata (b : Nat) : HCode Block := withBuf b fun x h => .done x.data h

def bread (b : Nat) : HCode Block := do
  bget b
  let x ← getBuf b
  (if x.valid then pure () else iderw b : HCode Unit)
  bdata b

/-- A store into the data of a buffer. -/
def bstore (b : Nat) (d : Block) : HCode Unit := withBuf b fun _ h =>
  .done () { h with bcache := modBuf b (fun x => { x with data := d }) h.bcache }

/-- `b->flags |= B_DIRTY`. -/
def bdirty (b : Nat) : HCode Unit := withBuf b fun _ h =>
  .done () { h with bcache := modBuf b (fun x => { x with dirty := true }) h.bcache }

def bwrite (b : Nat) : HCode Unit := do
  let x ← getBuf b
  (if x.busy = false then hstop (.panic "bwrite") else do
    bdirty b
    iderw b : HCode Unit)

/-- `brelse` moves the buffer to the head of the list. -/
def brelse (b : Nat) : HCode Unit := withBuf b fun x h =>
  if x.busy = false then .stop (.panic "brelse") h
  else .done () { h with
    bcache := { x with busy := false } :: h.bcache.filter (fun y => !Buf.isFor b y) }

/-! ## Lists of buffers -/

variable {l1 l2 : List Buf} {x y : Buf} {c : List Buf} {b : Nat}

theorem isFor_iff : Buf.isFor b x = true ↔ x.blockno = some b :=
  decide_eq_true_iff

/-- The block numbers in use. -/
def blocks (c : List Buf) : List Nat := c.filterMap Buf.blockno

theorem mem_blocks : b ∈ blocks c ↔ ∃ x ∈ c, x.blockno = some b :=
  mem_filterMap

/-- In a list without duplicate block numbers a block has one buffer. -/
theorem buf_unique (hu : (blocks c).Nodup) {b : Nat}
    (hx : x ∈ c) (hy : y ∈ c) (hxb : x.blockno = some b) (hyb : y.blockno = some b) : x = y := by
  induction c with
  | nil => cases hx
  | cons z c ih =>
    have hrest : (blocks c).Nodup := by
      cases hz : z.blockno with
      | none => rwa [blocks, filterMap_cons_none hz] at hu
      | some k =>
        rw [blocks, filterMap_cons_some hz, nodup_cons] at hu
        exact hu.2
    have hfresh : z.blockno = some b → ∀ w ∈ c, w.blockno ≠ some b := by
      intro hz w hw hwb
      rw [blocks, filterMap_cons_some hz, nodup_cons] at hu
      exact hu.1 (mem_blocks.mpr ⟨w, hw, hwb⟩)
    rcases mem_cons.mp hx with rfl | hx'
    · rcases mem_cons.mp hy with rfl | hy'
      · rfl
      · exact absurd hyb (hfresh hxb y hy')
    · rcases mem_cons.mp hy with rfl | hy'
      · exact absurd hxb (hfresh hyb x hx')
      · exact ih hrest hx' hy'

theorem lookup_some (h : lookup b c = some x) : x ∈ c ∧ x.blockno = some b :=
  ⟨mem_of_find?_eq_some h, isFor_iff.mp (find?_some h)⟩

theorem lookup_none (h : lookup b c = none) : ∀ x ∈ c, x.blockno ≠ some b := by
  intro x hx hb
  exact absurd (isFor_iff.mpr hb) (find?_eq_none.mp h x hx)

theorem lookup_absent (h : b ∉ blocks c) : lookup b c = none := by
  cases hl : lookup b c with
  | none => rfl
  | some x => exact absurd (mem_blocks.mpr ⟨x, lookup_some hl⟩) h

theorem lookup_of_mem (hu : (blocks c).Nodup) {b : Nat}
    (hx : x ∈ c) (hb : x.blockno = some b) : lookup b c = some x := by
  cases hl : lookup b c with
  | none => exact absurd hb (lookup_none hl x hx)
  | some y =>
    obtain ⟨hy, hyb⟩ := lookup_some hl
    rw [buf_unique hu hy hx hyb hb]

section ModBuf

variable {b : Nat} {f : Buf → Buf} {c : List Buf}

theorem mem_modBuf (h : x ∈ modBuf b f c) : (∃ y ∈ c, y.blockno = some b ∧ x = f y) ∨ (x ∈ c ∧ x.blockno ≠ some b) := by
  obtain ⟨y, hy, heq⟩ := mem_map.mp h
  cases hb : Buf.isFor b y with
  | true =>
    rw [hb] at heq
    exact .inl ⟨y, hy, isFor_iff.mp hb, heq.symm⟩
  | false =>
    rw [hb] at heq
    have heq' : y = x := heq
    subst heq'
    refine .inr ⟨hy, fun hyb => ?_⟩
    rw [isFor_iff.mpr hyb] at hb
    cases hb

theorem blocks_modBuf (hf : ∀ x, (f x).blockno = x.blockno) : blocks (modBuf b f c) = blocks c := by
  show (c.map _).filterMap Buf.blockno = c.filterMap Buf.blockno
  rw [filterMap_map]
  congr 1
  funext x
  show (if Buf.isFor b x then f x else x).blockno = x.blockno
  cases Buf.isFor b x with
  | true => exact hf x
  | false => rfl

theorem length_modBuf : (modBuf b f c).length = c.length := length_map _

end ModBuf

/-- What `recycle` does to the list: one buffer, idle and clean, changes its block. -/
theorem recycle_some {c c' : List Buf} (h : recycle b c = some c') :
    ∃ l1 x l2, c = l1 ++ x :: l2 ∧ x.busy = false ∧ x.dirty = false ∧
      c' = l1 ++ { x with blockno := some b, busy := true, valid := false } :: l2 := by
  induction c generalizing c' with
  | nil => cases h
  | cons x xs ih =>
    rw [recycle] at h
    cases hr : recycle b xs with
    | some xs' =>
      rw [hr] at h
      obtain ⟨l1, y, l2, h1, h2, h3, h4⟩ := ih hr
      refine ⟨x :: l1, y, l2, by rw [h1]; rfl, h2, h3, ?_⟩
      have : x :: xs' = c' := by simpa using h
      rw [← this, h4]; rfl
    | none =>
      rw [hr] at h
      by_cases hx : x.busy = false ∧ x.dirty = false
      · simp only [if_pos hx] at h
        exact ⟨[], x, xs, rfl, hx.1, hx.2, (Option.some.inj h).symm⟩
      · simp only [if_neg hx] at h
        cases h

/-- `recycle` fails only when every buffer is busy or dirty. -/
theorem recycle_none : ∀ {c : List Buf}, recycle b c = none → ∀ x ∈ c, x.busy = true ∨ x.dirty = true := by
  intro c
  induction c with
  | nil => intro _ x hx; cases hx
  | cons y ys ih =>
    intro h x hx
    rw [recycle] at h
    cases hr : recycle b ys with
    | some ys' => rw [hr] at h; cases h
    | none =>
      rw [hr] at h
      rcases mem_cons.mp hx with rfl | hx'
      · by_cases hc : x.busy = false ∧ x.dirty = false
        · simp only [if_pos hc] at h
          cases h
        · cases hb : x.busy with
          | true => exact .inl rfl
          | false =>
            cases hd : x.dirty with
            | true => exact .inr rfl
            | false => exact absurd ⟨hb, hd⟩ hc
      · exact ih hr x hx'

/-- Buffers that are all in use hold as many blocks as there are buffers. -/
theorem length_blocks (h : ∀ x ∈ c, ∃ b, x.blockno = some b) : (blocks c).length = c.length := by
  induction c with
  | nil => rfl
  | cons x c ih =>
    obtain ⟨b, hb⟩ := h x (mem_cons_self ..)
    rw [blocks, filterMap_cons_some hb, length_cons, length_cons]
    exact congrArg Nat.succ (ih (fun y hy => h y (mem_cons_of_mem _ hy)))

/-! ## What the cache looks like from outside -/

/-- What a block holds: the overlay's value, or else the disk's. -/
def shown (d : Nat → Block) (m : Nat → Option Block) (b : Nat) : Block := (m b).getD (d b)

/-- The buffer `x` of block `b` says what overlay, held and pinned blocks say of `b`. -/
structure Entry (d : Nat → Block) (m : Nat → Option Block) (H P : List Nat) (b : Nat)
    (x : Buf) : Prop where
  valid : x.valid = true
  bound : b < FSSIZE
  busy : x.busy = true ↔ b ∈ H
  dirty : x.dirty = true ↔ b ∈ P
  data : x.data = shown d m b

/-- The machine looks like the disk `d` under the overlay `m`, with the blocks `H` held
    and the blocks `P` pinned. Only held or pinned blocks differ from the disk, so no
    buffer that can be recycled loses data. -/
structure Cached (h : HState) (d : Nat → Block) (m : Nat → Option Block) (H P : List Nat) :
    Prop where
  disk : h.disk = d
  len : h.bcache.length = NBUF
  uniq : (blocks h.bcache).Nodup
  idle : ∀ x ∈ h.bcache, x.blockno = none → x.busy = false ∧ x.dirty = false
  entry : ∀ x ∈ h.bcache, ∀ b, x.blockno = some b → Entry d m H P b x
  has : ∀ b, b ∈ P ∨ b ∈ H → b ∈ blocks h.bcache
  overlay : ∀ b, m b ≠ none → b ∈ P ∨ b ∈ H

/-- What code of the buffer cache leaves alone. -/
structure Frame (h h' : HState) : Prop where
  base : h'.base = h.base
  log : h'.log = h.log

theorem Frame.refl (h : HState) : Frame h h := ⟨rfl, rfl⟩

theorem Frame.trans {h h1 h2 : HState} (f : Frame h h1) (g : Frame h1 h2) : Frame h h2 :=
  ⟨g.base.trans f.base, g.log.trans f.log⟩

section Cached

variable {h h' : HState} {d d' : Nat → Block} {m m' : Nat → Option Block}
  {H H' P P' : List Nat} {b : Nat} {G : Prop}

/-- A held or pinned block has a buffer. -/
theorem Cached.look (hc : Cached h d m H P) (hb : b ∈ P ∨ b ∈ H) :
    ∃ x, lookup b h.bcache = some x ∧ Entry d m H P b x := by
  obtain ⟨x, hx, hxb⟩ := mem_blocks.mp (hc.has b hb)
  exact ⟨x, lookup_of_mem hc.uniq hx hxb, hc.entry x hx b hxb⟩

/-- The two states differ at block `b` only. -/
structure SameBut (b : Nat) (d d' : Nat → Block) (m m' : Nat → Option Block)
    (H H' P P' : List Nat) : Prop where
  disk : ∀ a, a ≠ b → d' a = d a
  overlay : ∀ a, a ≠ b → m' a = m a
  held : ∀ a, a ≠ b → (a ∈ H' ↔ a ∈ H)
  pinned : ∀ a, a ≠ b → (a ∈ P' ↔ a ∈ P)

/-- **One buffer at a time**: a change of the cache that leaves the buffers of all blocks
    but `b` as they are, or evicts some that are neither held nor pinned. -/
theorem cached_step (hc : Cached h d m H P) (hd : h'.disk = d') (hs : SameBut b d d' m m' H H' P P')
    (hlen : h'.bcache.length = NBUF) (hu : (blocks h'.bcache).Nodup)
    (hmem : ∀ x ∈ h'.bcache, (x ∈ h.bcache ∧ x.blockno ≠ some b) ∨
      (x.blockno = some b ∧ Entry d' m' H' P' b x)) (hb : b ∈ blocks h'.bcache)
    (hkeep : ∀ a, a ≠ b → a ∈ P ∨ a ∈ H → a ∈ blocks h'.bcache)
    (hover : m' b ≠ none → b ∈ P' ∨ b ∈ H') : Cached h' d' m' H' P' := by
  refine ⟨hd, hlen, hu, ?_, ?_, ?_, ?_⟩
  · intro x hx hnone
    rcases hmem x hx with ⟨hxc, _⟩ | ⟨hxb, _⟩
    · exact hc.idle x hxc hnone
    · rw [hxb] at hnone; cases hnone
  · intro x hx a ha
    rcases hmem x hx with ⟨hxc, hne⟩ | ⟨hxb, he⟩
    · have hab : a ≠ b := by rintro rfl; exact hne ha
      have he := hc.entry x hxc a ha
      refine ⟨he.valid, he.bound, he.busy.trans (hs.held a hab).symm, he.dirty.trans (hs.pinned a hab).symm, ?_⟩
      rw [he.data]
      show (m a).getD (d a) = (m' a).getD (d' a)
      rw [hs.overlay a hab, hs.disk a hab]
    · rw [hxb] at ha
      cases ha
      exact he
  · intro a ha
    by_cases hab : a = b
    · rw [hab]; exact hb
    · rw [hs.pinned a hab, hs.held a hab] at ha
      exact hkeep a hab ha
  · intro a ha
    by_cases hab : a = b
    · subst hab; exact hover ha
    · rw [hs.overlay a hab] at ha
      rw [hs.pinned a hab, hs.held a hab]
      exact hc.overlay a ha

/-- A change of the buffer of `b` in place. -/
theorem cached_modBuf (hc : Cached h d m H P) (hb : b ∈ P ∨ b ∈ H ∨ b ∈ blocks h.bcache)
    {f : Buf → Buf} (hf : ∀ x, (f x).blockno = x.blockno)
    (hcache : h'.bcache = modBuf b f h.bcache) (hd : h'.disk = d') (hs : SameBut b d d' m m' H H' P P')
    (he : ∀ x, Entry d m H P b x → Entry d' m' H' P' b (f x))
    (hover : m' b ≠ none → b ∈ P' ∨ b ∈ H') : Cached h' d' m' H' P' := by
  have hblocks : blocks h'.bcache = blocks h.bcache := by rw [hcache, blocks_modBuf hf]
  have hbin : b ∈ blocks h.bcache := by
    rcases hb with h1 | h1 | h1
    · exact hc.has b (.inl h1)
    · exact hc.has b (.inr h1)
    · exact h1
  refine cached_step hc hd hs ?_ ?_ ?_ ?_ ?_ hover
  · rw [hcache, length_modBuf, hc.len]
  · rw [hblocks]; exact hc.uniq
  · intro x hx
    rw [hcache] at hx
    rcases mem_modBuf hx with ⟨y, hy, hyb, rfl⟩ | hkeep
    · exact .inr ⟨(hf y).trans hyb, he y (hc.entry y hy b hyb)⟩
    · exact .inl hkeep
  · rw [hblocks]; exact hbin
  · intro a _ ha
    rw [hblocks]
    exact hc.has a ha

/-! ## The functions of `bio.c` -/

/-- With fewer held and pinned blocks than buffers one of the buffers can be recycled. -/
theorem recycle_room (hc : Cached h d m H P) (hroom : (P ++ H).length < NBUF) (b : Nat) :
    recycle b h.bcache ≠ none := by
  intro hnone
  have hall := recycle_none hnone
  have hin : ∀ x ∈ h.bcache, ∃ a, x.blockno = some a ∧ a ∈ P ++ H := by
    intro x hx
    cases hb : x.blockno with
    | none =>
      obtain ⟨h1, h2⟩ := hc.idle x hx hb
      rcases hall x hx with h3 | h3
      · rw [h1] at h3; cases h3
      · rw [h2] at h3; cases h3
    | some a =>
      have he := hc.entry x hx a hb
      refine ⟨a, rfl, mem_append.mpr ?_⟩
      rcases hall x hx with h3 | h3
      · exact .inr (he.busy.mp h3)
      · exact .inl (he.dirty.mp h3)
  have hlen : (blocks h.bcache).length = NBUF := by
    rw [length_blocks (fun x hx => (hin x hx).imp fun _ ha => ha.1), hc.len]
  have hsub : blocks h.bcache ⊆ P ++ H := by
    intro a ha
    obtain ⟨x, hx, hxa⟩ := mem_blocks.mp ha
    obtain ⟨a', ha', hmem⟩ := hin x hx
    rw [hxa] at ha'
    cases ha'
    exact hmem
  have := (subperm_of_subset hc.uniq hsub).length_le
  omega

/-- A block without a buffer shows the disk. -/
theorem Cached.absent (hc : Cached h d m H P) (hb : b ∉ blocks h.bcache) : m b = none ∧ b ∉ H ∧ b ∉ P := by
  refine ⟨?_, fun hH => hb (hc.has b (.inr hH)), fun hP => hb (hc.has b (.inl hP))⟩
  cases hm : m b with
  | none => rfl
  | some v => exact absurd (hc.has b (hc.overlay b (by rw [hm]; simp))) hb

theorem sameBut_hold (b : Nat) (d : Nat → Block) (m : Nat → Option Block) (H P : List Nat) :
    SameBut b d d m m H (b :: H) P P :=
  ⟨fun _ _ => rfl, fun _ _ => rfl, fun a hab => by simp [hab], fun _ _ => Iff.rfl⟩

/-- A recycled buffer after the read from the disk. -/
theorem cached_recycle (hc : Cached h d m H P) (hb : b ∉ blocks h.bcache) (hlt : b < FSSIZE)
    (hsplit : h.bcache = l1 ++ x :: l2) (hbusy : x.busy = false) (hdirty : x.dirty = false)
    (hcache : h'.bcache = l1 ++ y :: l2) (hd : h'.disk = d) (hyb : y.blockno = some b)
    (hy : y.busy = true ∧ y.valid = true ∧ y.dirty = false ∧ y.data = d b) : Cached h' d m (b :: H) P := by
  obtain ⟨hm, hH, hP⟩ := hc.absent hb
  -- the blocks of the other buffers
  have hothers : ∀ a, a ∈ blocks (l1 ++ l2) → a ∈ blocks h.bcache := by
    intro a ha
    obtain ⟨z, hz, hza⟩ := mem_blocks.mp ha
    refine mem_blocks.mpr ⟨z, ?_, hza⟩
    rw [hsplit]
    rcases mem_append.mp hz with h1 | h1
    · exact mem_append.mpr (.inl h1)
    · exact mem_append.mpr (.inr (mem_cons_of_mem _ h1))
  have hperm : (blocks h'.bcache).Perm (b :: blocks (l1 ++ l2)) := by
    rw [hcache]
    have := (perm_middle : (l1 ++ y :: l2).Perm (y :: (l1 ++ l2))).filterMap Buf.blockno
    rwa [filterMap_cons_some hyb] at this
  have hrest : (blocks (l1 ++ l2)).Nodup := by
    have hsub : (l1 ++ l2).Sublist h.bcache := by
      rw [hsplit]
      exact List.Sublist.append_left (sublist_cons_self x l2) l1
    exact hc.uniq.sublist (hsub.filterMap _)
  refine cached_step hc hd (sameBut_hold b d m H P) ?_ ?_ ?_ ?_ ?_ ?_
  · have := hc.len
    rw [hsplit] at this
    rw [hcache]
    simpa using this
  · rw [hperm.nodup_iff, nodup_cons]
    exact ⟨fun hmem => hb (hothers b hmem), hrest⟩
  · intro z hz
    rw [hcache] at hz
    have hz' : z = y ∨ z ∈ l1 ++ l2 := by
      simpa [or_left_comm, or_assoc] using hz
    rcases hz' with rfl | hz'
    · refine .inr ⟨hyb, ⟨hy.2.1, hlt, ?_, ?_, ?_⟩⟩
      · rw [hy.1]; simp
      · rw [hy.2.2.1]; simp [hP]
      · rw [hy.2.2.2]
        show d b = (m b).getD (d b)
        rw [hm]; rfl
    · refine .inl ⟨?_, ?_⟩
      · rw [hsplit]
        rcases mem_append.mp hz' with h1 | h1
        · exact mem_append.mpr (.inl h1)
        · exact mem_append.mpr (.inr (mem_cons_of_mem _ h1))
      · intro hzb
        exact hb (hothers b (mem_blocks.mpr ⟨z, hz', hzb⟩))
  · rw [hperm.mem_iff]; exact mem_cons_self ..
  · intro a hab ha
    rw [hperm.mem_iff]
    refine mem_cons_of_mem _ ?_
    obtain ⟨z, hz, hza⟩ := mem_blocks.mp (hc.has a ha)
    rw [hsplit] at hz
    have hz' : z = x ∨ z ∈ l1 ++ l2 := by
      simpa [or_left_comm, or_assoc] using hz
    rcases hz' with rfl | hz'
    · -- the recycled buffer was neither held nor pinned
      have he := hc.entry z (by rw [hsplit]; simp) a hza
      rcases ha with h1 | h1
      · rw [he.dirty.mpr h1] at hdirty; cases hdirty
      · rw [he.busy.mpr h1] at hbusy; cases hbusy
    · exact mem_blocks.mpr ⟨z, hz', hza⟩
  · intro hne; exact absurd hm hne

theorem lookup_middle (hl : ∀ z ∈ l1, z.blockno ≠ some b)
    (hy : y.blockno = some b) : lookup b (l1 ++ y :: l2) = some y := by
  have h1 : l1.find? (Buf.isFor b) = none :=
    find?_eq_none.mpr fun z hz hf => hl z hz (isFor_iff.mp hf)
  rw [lookup, find?_append, h1, Option.none_or, find?_cons_of_pos (isFor_iff.mpr hy)]

theorem modBuf_of_absent {f : Buf → Buf} {l : List Buf} (hl : ∀ z ∈ l, z.blockno ≠ some b) : modBuf b f l = l := by
  refine (map_congr_left fun z hz => ?_).trans (map_id l)
  have hz' : ¬ Buf.isFor b z = true := fun hf => hl z hz (isFor_iff.mp hf)
  exact if_neg hz'

theorem modBuf_middle {f : Buf → Buf} (h1 : ∀ z ∈ l1, z.blockno ≠ some b) (h2 : ∀ z ∈ l2, z.blockno ≠ some b)
    (hy : y.blockno = some b) : modBuf b f (l1 ++ y :: l2) = l1 ++ f y :: l2 := by
  have hy' : (if Buf.isFor b y then f y else y) = f y := if_pos (isFor_iff.mpr hy)
  have e1 := modBuf_of_absent (f := f) h1
  have e2 := modBuf_of_absent (f := f) h2
  rw [modBuf] at e1 e2 ⊢
  rw [map_append, map_cons, e1, e2, hy']

theorem withBuf_eq {α : Type} {f : Buf → HState → Out Stop HState α} (hl : lookup b h.bcache = some x) :
    withBuf b f h = f x h := by
  simp only [withBuf, hl]

theorem getBuf_eq (hl : lookup b h.bcache = some x) : getBuf b h = .done x h := by
  rw [getBuf, withBuf_eq hl]

section

variable (hc : Cached h d m H P)
include hc

/-- A held block's data. -/
theorem bdata_eq (hb : b ∈ H) : bdata b h = .done (shown d m b) h := by
  obtain ⟨x, hl, he⟩ := hc.look (.inr hb)
  rw [bdata, withBuf_eq hl, he.data]

/-- `bread` of a block that has a buffer. -/
theorem bread_hit (hin : b ∈ blocks h.bcache) (hH : b ∉ H) :
    ∃ h', bread b h = .done (shown d m b) h' ∧ h'.writes = h.writes ∧ Frame h h' ∧
      b < FSSIZE ∧ Cached h' d m (b :: H) P := by
  obtain ⟨x, hx, hxb⟩ := mem_blocks.mp hin
  have he := hc.entry x hx b hxb
  have hbusy : x.busy = false := by
    cases hbz : x.busy with
    | false => rfl
    | true => exact absurd (he.busy.mp hbz) hH
  let h1 : HState := { h with bcache := modBuf b (fun x => { x with busy := true }) h.bcache }
  have hget : bget b h = .done () h1 := by
    simp only [bget, lookup_of_mem hc.uniq hx hxb, hbusy]
    rfl
  have hc1 : Cached h1 d m (b :: H) P := by
    refine cached_modBuf (f := fun x => { x with busy := true }) hc (.inr (.inr hin))
      (fun _ => rfl) rfl hc.disk (sameBut_hold b d m H P) ?_ ?_
    · intro y hy
      exact ⟨hy.valid, hy.bound, by simp, hy.dirty, hy.data⟩
    · intro _; exact .inr (mem_cons_self ..)
  obtain ⟨x1, hl1, he1⟩ := hc1.look (.inr (mem_cons_self ..))
  refine ⟨h1, ?_, rfl, ⟨rfl, rfl⟩, he.bound, hc1⟩
  rw [bread, code_bind_of_done hget, code_bind_of_done (getBuf_eq hl1), if_pos he1.valid]
  exact bdata_eq hc1 (mem_cons_self ..)

/-- `bread` of a block that has none, when a buffer can be recycled. -/
theorem bread_miss (hin : b ∉ blocks h.bcache) (hlt : b < FSSIZE) {c : List Buf} (hr : recycle b h.bcache = some c) :
    ∃ h', bread b h = .done (shown d m b) h' ∧ h'.writes = h.writes ∧ Frame h h' ∧ Cached h' d m (b :: H) P := by
  have hnone := lookup_absent hin
  obtain ⟨l1, x, l2, hsplit, hbusy, hdirty, rfl⟩ := recycle_some hr
  have habs : ∀ z ∈ h.bcache, z.blockno ≠ some b := lookup_none hnone
  have ha1 : ∀ z ∈ l1, z.blockno ≠ some b := fun z hz => habs z (by rw [hsplit]; simp [hz])
  have ha2 : ∀ z ∈ l2, z.blockno ≠ some b := fun z hz => habs z (by rw [hsplit]; simp [hz])
  let y : Buf := { x with blockno := some b, busy := true, valid := false }
  let h1 : HState := { h with bcache := l1 ++ y :: l2 }
  let h2 : HState := { h with bcache := l1 ++ { y with valid := true, data := h.disk b } :: l2 }
  have hget : bget b h = .done () h1 := by
    simp only [bget, hnone, hr]
    rfl
  have hl1 : lookup b h1.bcache = some y := lookup_middle ha1 rfl
  have hread : iderw b h1 = .done () h2 := by
    rw [iderw, withBuf_eq hl1, if_neg (by simp [y]), if_neg (by simp [y]),
        if_neg (not_le.mpr hlt), if_neg (by simp [y, hdirty])]
    rw [modBuf_middle ha1 ha2 rfl]
    rfl
  have hc2 : Cached h2 d m (b :: H) P :=
    cached_recycle hc hin hlt hsplit hbusy hdirty rfl hc.disk rfl
      ⟨rfl, rfl, hdirty, by show h.disk b = d b; rw [hc.disk]⟩
  refine ⟨h2, ?_, rfl, ⟨rfl, rfl⟩, hc2⟩
  rw [bread, code_bind_of_done hget, code_bind_of_done (getBuf_eq hl1), if_neg (by simp [y]), code_bind_of_done hread]
  exact bdata_eq hc2 (mem_cons_self ..)

/-- **`bread`** shows the block and holds it. It stops when the block is held already,
    does not exist, or when all buffers are held or pinned. -/
theorem bread_emits
    (hG : G → b < FSSIZE ∧ b ∉ H ∧ (b ∈ P ∨ (P ++ H).length < NBUF)) :
    Emits HState.writes G (bread b) h [] (fun v h' => v = shown d m b ∧ b < FSSIZE ∧ b ∉ H ∧
      Frame h h' ∧ Cached h' d m (b :: H) P) := by
  by_cases hin : b ∈ blocks h.bcache
  · by_cases hH : b ∈ H
    · obtain ⟨x, hl, he⟩ := hc.look (.inr hH)
      have hstop : bread b h = .stop .blocked h := by
        refine code_bind_of_stop ?_
        simp only [bget, hl, he.busy.mpr hH, if_true]
      exact emits_stop hstop (fun hg => (hG hg).2.1 hH) rfl
    · obtain ⟨h', hrun, hw, hf, hlt, hc'⟩ := bread_hit hc hin hH
      exact emits_done hrun hw ⟨rfl, hlt, hH, hf, hc'⟩
  · obtain ⟨_, hH, hP⟩ := hc.absent hin
    have hnone := lookup_absent hin
    cases hr : recycle b h.bcache with
    | none =>
      have hstop : bread b h = .stop (.panic "bget: no buffers") h := by
        refine code_bind_of_stop ?_
        simp only [bget, hnone, hr]
      refine emits_stop hstop (fun hg => ?_) rfl
      rcases (hG hg).2.2 with h1 | h1
      · exact hP h1
      · exact recycle_room hc h1 b hr
    | some c =>
      by_cases hlt : b < FSSIZE
      · obtain ⟨h', hrun, hw, hf, hc'⟩ := bread_miss hc hin hlt hr
        exact emits_done hrun hw ⟨rfl, hlt, hH, hf, hc'⟩
      · obtain ⟨l1, x, l2, hsplit, hbusy, hdirty, rfl⟩ := recycle_some hr
        have ha1 : ∀ z ∈ l1, z.blockno ≠ some b := fun z hz =>
          lookup_none hnone z (by rw [hsplit]; simp [hz])
        let y : Buf := { x with blockno := some b, busy := true, valid := false }
        let h1 : HState := { h with bcache := l1 ++ y :: l2 }
        have hget : bget b h = .done () h1 := by
          simp only [bget, hnone, hr]
          rfl
        have hl1 : lookup b h1.bcache = some y := lookup_middle ha1 rfl
        have hread : iderw b h1 = .stop (.panic "incorrect blockno") h1 := by
          rw [iderw, withBuf_eq hl1, if_neg (by simp [y]), if_neg (by simp [y]), if_pos (not_lt.mp hlt)]
        have hstop : bread b h = .stop (.panic "incorrect blockno") h1 := by
          rw [bread, code_bind_of_done hget, code_bind_of_done (getBuf_eq hl1),
              if_neg (by simp [y]), code_bind_of_stop hread]
        exact emits_stop hstop (fun hg => hlt (hG hg).1) rfl

/-- **`bstore`** into a held buffer changes the overlay. -/
theorem bstore_done (hb : b ∈ H) (v : Block) :
    ∃ h', bstore b v h = .done () h' ∧ h'.writes = h.writes ∧ Frame h h' ∧ Cached h' d (update m b (some v)) H P := by
  obtain ⟨x, hl, he⟩ := hc.look (.inr hb)
  refine ⟨{ h with bcache := modBuf b (fun x => { x with data := v }) h.bcache },
    by rw [bstore, withBuf_eq hl], rfl, ⟨rfl, rfl⟩, ?_⟩
  refine cached_modBuf (f := fun x => { x with data := v }) hc (.inr (.inl hb))
    (fun _ => rfl) rfl hc.disk ⟨fun _ _ => rfl, ?_, fun _ _ => Iff.rfl, fun _ _ => Iff.rfl⟩ ?_ ?_
  · intro a hab; exact update_of_ne hab _ _
  · intro y hy
    refine ⟨hy.valid, hy.bound, hy.busy, hy.dirty, ?_⟩
    show v = (update m b (some v) b).getD (d b)
    rw [update_self]; rfl
  · intro _; exact .inr hb

/-- Setting `B_DIRTY` on a held buffer pins the block; what it shows is what it is. -/
theorem bdirty_done (hb : b ∈ H) (hP : ∀ a, a ∈ P' ↔ a ∈ P ∨ a = b) :
    ∃ h', bdirty b h = .done () h' ∧ h'.writes = h.writes ∧ Frame h h' ∧
      Cached h' d (update m b (some (shown d m b))) H P' := by
  obtain ⟨x, hl, he⟩ := hc.look (.inr hb)
  have hbP : b ∈ P' := (hP b).mpr (.inr rfl)
  refine ⟨{ h with bcache := modBuf b (fun x => { x with dirty := true }) h.bcache },
    by rw [bdirty, withBuf_eq hl], rfl, ⟨rfl, rfl⟩, ?_⟩
  refine cached_modBuf (f := fun x => { x with dirty := true }) hc (.inr (.inl hb))
    (fun _ => rfl) rfl hc.disk ⟨fun _ _ => rfl, ?_, fun _ _ => Iff.rfl, ?_⟩ ?_ ?_
  · intro a hab; exact update_of_ne hab _ _
  · intro a hab; rw [hP a]; simp [hab]
  · intro y hy
    refine ⟨hy.valid, hy.bound, hy.busy, by simp [hbP], ?_⟩
    rw [hy.data]
    show shown d m b = (update m b _ b).getD (d b)
    rw [update_self]; rfl
  · intro _; exact .inl hbP

/-- **`bwrite`** of a held buffer writes what the block shows to the disk, and the buffer
    is clean afterwards. -/
theorem bwrite_done (hb : b ∈ H) :
    ∃ h', bwrite b h = .done () h' ∧ h'.writes = h.writes ++ [(b, shown d m b)] ∧ Frame h h' ∧
      Cached h' (update d b (shown d m b)) (update m b none) H
        (P.filter (fun a => decide (a ≠ b))) := by
  obtain ⟨x, hl, he⟩ := hc.look (.inr hb)
  have hPb : ∀ a, a ∈ b :: P ↔ a ∈ P ∨ a = b := by intro a; simp [or_comm]
  obtain ⟨h1, hrun1, hw1, hf1, hc1⟩ := bdirty_done hc hb hPb
  obtain ⟨x1, hl1, he1⟩ := hc1.look (.inr hb)
  have hshow : x1.data = shown d m b := by
    rw [he1.data]
    show (update m b _ b).getD (d b) = _
    rw [update_self]; rfl
  let h2 : HState := { h1 with
    writes := h1.writes ++ [(b, shown d m b)]
    bcache := modBuf b (fun x => { x with valid := true, dirty := false }) h1.bcache }
  have hrun2 : iderw b h1 = .done () h2 := by
    rw [iderw, withBuf_eq hl1, if_neg (by simp [he1.busy.mpr hb]), if_neg (by simp [he1.dirty.mpr (mem_cons_self ..)]),
        if_neg (not_le.mpr he1.bound), if_pos (he1.dirty.mpr (mem_cons_self ..)), hshow]
  refine ⟨h2, ?_, by rw [← hw1], ?_, ?_⟩
  · rw [bwrite, code_bind_of_done (getBuf_eq hl), if_neg (by simp [he.busy.mpr hb]), code_bind_of_done hrun1]
    exact hrun2
  · exact ⟨hf1.base, hf1.log⟩
  · refine cached_modBuf (f := fun x => { x with valid := true, dirty := false }) hc1
      (.inr (.inl hb)) (fun _ => rfl) rfl ?_ ⟨?_, ?_, fun _ _ => Iff.rfl, ?_⟩ ?_ ?_
    · show applyW (h1.writes ++ [(b, shown d m b)]) h1.base = _
      rw [applyW_append]
      show update h1.disk b (shown d m b) = _
      rw [hc1.disk]
    · intro a hab; exact update_of_ne hab _ _
    · intro a hab; rw [update_of_ne hab, update_of_ne hab]
    · intro a hab; simp [hab]
    · intro y hy
      refine ⟨rfl, hy.bound, hy.busy, by simp, ?_⟩
      have hyd : y.data = shown d m b := by
        rw [hy.data]
        show (update m b _ b).getD (d b) = _
        rw [update_self]; rfl
      show y.data = (update m b none b).getD (update d b _ b)
      rw [update_self, update_self, hyd]
      rfl
    · intro hne
      rw [update_self] at hne
      exact absurd rfl hne

/-- **`brelse`** of a held buffer that is pinned or shows the disk. -/
theorem brelse_done (hb : b ∈ H) (hsafe : b ∈ P ∨ m b = none) :
    ∃ h', brelse b h = .done () h' ∧ h'.writes = h.writes ∧ Frame h h' ∧
      Cached h' d m (H.filter (fun a => decide (a ≠ b))) P := by
  obtain ⟨x, hl, he⟩ := hc.look (.inr hb)
  obtain ⟨hx, hxb⟩ := lookup_some hl
  have hfilter : ∀ z, z ∈ h.bcache.filter (fun y => !Buf.isFor b y) ↔ z ∈ h.bcache ∧ z.blockno ≠ some b := by
    intro z
    simp [Buf.isFor]
  refine ⟨{ h with bcache := { x with busy := false } ::
    h.bcache.filter (fun y => !Buf.isFor b y) },
    by rw [brelse, withBuf_eq hl, if_neg (by simp [he.busy.mpr hb])], rfl,
    ⟨rfl, rfl⟩, ?_⟩
  have hperm : (x :: h.bcache.filter (fun y => !Buf.isFor b y)).Perm h.bcache := by
    obtain ⟨l1, l2, hsplit⟩ := append_of_mem hx
    have hothers : ∀ z ∈ l1 ++ l2, z.blockno ≠ some b := by
      intro z hz hzb
      have hp : (blocks h.bcache).Perm (b :: blocks (l1 ++ l2)) := by
        rw [hsplit]
        have := (perm_middle : (l1 ++ x :: l2).Perm (x :: (l1 ++ l2))).filterMap Buf.blockno
        rwa [filterMap_cons_some hxb] at this
      have hnd := hp.nodup_iff.mp hc.uniq
      rw [nodup_cons] at hnd
      exact hnd.1 (mem_blocks.mpr ⟨z, hz, hzb⟩)
    have hf : h.bcache.filter (fun y => !Buf.isFor b y) = l1 ++ l2 := by
      have hx' : Buf.isFor b x = true := isFor_iff.mpr hxb
      rw [hsplit, filter_append, filter_cons_of_neg (by simp [hx']), ← filter_append, filter_eq_self]
      intro z hz
      have : ¬ Buf.isFor b z = true := fun hf => hothers z hz (isFor_iff.mp hf)
      simpa using this
    rw [hf, hsplit]
    exact perm_middle.symm
  have hblocks : (blocks ({ x with busy := false } ::
      h.bcache.filter (fun y => !Buf.isFor b y))).Perm (blocks h.bcache) :=
    (hperm.filterMap Buf.blockno)
  have hs : SameBut b d d m m H (H.filter (fun a => decide (a ≠ b))) P P :=
    ⟨fun _ _ => rfl, fun _ _ => rfl, fun a hab => by simp [hab], fun _ _ => Iff.rfl⟩
  refine cached_step hc hc.disk hs ?_ ?_ ?_ ?_ ?_ ?_
  · rw [← hc.len]; exact hperm.length_eq
  · exact hblocks.nodup_iff.mpr hc.uniq
  · intro z hz
    rcases mem_cons.mp hz with rfl | hz'
    · exact .inr ⟨hxb, he.valid, he.bound, by simp, he.dirty, he.data⟩
    · exact .inl ((hfilter z).mp hz')
  · exact hblocks.mem_iff.mpr (hc.has b (.inr hb))
  · intro a _ ha; exact hblocks.mem_iff.mpr (hc.has a ha)
  · intro hne
    rcases hsafe with h1 | h1
    · exact .inl h1
    · exact absurd h1 hne

end

end Cached

end Xv6Buf
