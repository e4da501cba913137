import Xv6.BufferCacheProofs

/-!
# The log — `log.c` on the physical machine

The functions of `log.c` over the buffer cache, and what each of them writes to the disk.
`logFormat` puts the on-disk header and the log blocks behind it into the terms of
`RedoLogProofs`; each loop then emits the list of writes that the theory speaks of
(`slotW`, `recoverW`, `commitW`), or stops after a prefix of it.

The three loops share one shape: hold a log block and a home block, store the data of one
into the other, write it, release both. What differs is which of the two is written.
-/

namespace Xv6Log

open CmdProg ByteBuf Xv6Disk Xv6Kernel RedoLog Xv6Buf Function List Prod UInt32 HState

/-! ## The header block -/

/-- The stores `hb->block[i] = log.lh.block[i]`, from index `i` on. -/
def putBlocks : Block → Nat → List Nat → Block
  | v, _, [] => v
  | v, i, b :: bs => putBlocks (putU32 v (4 + 4 * i) (ofNat b)) (i + 1) bs

/-- The header block after `write_head` has filled it in. -/
def putHead (v : Block) (lh : List Nat) : Block :=
  putBlocks (putU32 v 0 (ofNat lh.length)) 0 lh

/-- `lh->n`, an `int`. -/
def headN (v : Block) : Int := (u32At v 0).toInt32.toInt

/-- The blocks `lh->block[0..n)` of a header block. -/
def getHead (v : Block) : List Nat :=
  (range (headN v).toNat).map fun i => (u32At v (4 + 4 * i)).toNat

/-! ## The functions of `log.c` -/

def getLog : HCode Log := fun h => .done h.log h

def modLog (f : Log → Log) : HCode Unit := fun h => .done () { h with log := f h.log }

def installLoop (start : Nat) : Nat → List Nat → HCode Unit
  | _, [] => pure ()
  | tail, b :: bs => do
    let lbuf ← bread (start + tail + 1)
    let _ ← bread b
    bstore b lbuf
    bwrite b
    brelse (start + tail + 1)
    brelse b
    installLoop start (tail + 1) bs

def installTrans : HCode Unit := do
  let log ← getLog
  installLoop log.start 0 log.lh

/-- `read_head`. A header that lists more than `LOGSIZE` blocks would be copied past the
    end of `log.lh.block`. -/
def readHead : HCode Unit := do
  let log ← getLog
  let buf ← bread log.start
  (if (LOGSIZE : Int) < headN buf then hstop (.outside "log header")
    else modLog fun l => { l with lh := getHead buf } : HCode Unit)
  brelse log.start

def writeHead : HCode Unit := do
  let log ← getLog
  let buf ← bread log.start
  bstore log.start (putHead buf log.lh)
  bwrite log.start
  brelse log.start

def recoverFromLog : HCode Unit := do
  readHead
  installTrans
  modLog fun l => { l with lh := [] }
  writeHead

def writeLogLoop (start : Nat) : Nat → List Nat → HCode Unit
  | _, [] => pure ()
  | tail, b :: bs => do
    let _ ← bread (start + tail + 1)
    let frm ← bread b
    bstore (start + tail + 1) frm
    bwrite (start + tail + 1)
    brelse b
    brelse (start + tail + 1)
    writeLogLoop start (tail + 1) bs

def writeLog : HCode Unit := do
  let log ← getLog
  writeLogLoop log.start 0 log.lh

def commit : HCode Unit := do
  let log ← getLog
  (if 0 < log.lh.length then do
    writeLog
    writeHead
    installTrans
    modLog fun l => { l with lh := [] }
    writeHead
  else pure () : HCode Unit)

/-! ## The header as a list -/

theorem u32At_putBlocks_before {o : Nat} (bs : List Nat) (v : Block) (i : Nat) (ho : o + 4 ≤ 4 + 4 * i) :
    u32At (putBlocks v i bs) o = u32At v o := by
  induction bs generalizing v i with
  | nil => rfl
  | cons b bs ih =>
    show u32At (putBlocks (putU32 v (4 + 4 * i) (ofNat b)) (i + 1) bs) o = u32At v o
    rw [ih _ (i + 1) (by omega), u32At_putU32_out _ _ (.inl ho)]

theorem u32At_putBlocks : ∀ (bs : List Nat) (v : Block) (i : Nat),
    4 + 4 * (i + bs.length) ≤ BSIZE → ∀ (j : Nat) (b : Nat), bs[j]? = some b →
    u32At (putBlocks v i bs) (4 + 4 * (i + j)) = ofNat b := by
  intro bs
  induction bs with
  | nil => intro v i _ j b hj; cases hj
  | cons a bs ih =>
    intro v i hi j b hj
    rw [length_cons] at hi
    show u32At (putBlocks (putU32 v (4 + 4 * i) (ofNat a)) (i + 1) bs) _ = _
    cases j with
    | zero =>
      have hab : a = b := by simpa using hj
      rw [u32At_putBlocks_before bs _ (i + 1) (by omega), add_zero, u32At_putU32 _ _ (by omega), hab]
    | succ j =>
      have := ih (putU32 v (4 + 4 * i) (ofNat a)) (i + 1) (by omega) j b (by simpa using hj)
      rwa [show i + (j + 1) = i + 1 + j by omega]

theorem headN_putHead (v : Block) {lh : List Nat} (hlen : lh.length ≤ LOGSIZE) : headN (putHead v lh) = lh.length := by
  have hL : lh.length ≤ 30 := hlen
  show (u32At (putBlocks (putU32 v 0 (ofNat lh.length)) 0 lh) 0).toInt32.toInt = _
  rw [u32At_putBlocks_before lh _ 0 (by omega), u32At_putU32 _ _ (by decide)]
  have hcast : ∀ n, n ≤ 30 → (ofNat n).toInt32.toInt = n := by decide
  exact hcast _ hL

/-- Reading back a header that `write_head` wrote. -/
theorem getHead_putHead (v : Block) {lh : List Nat} (hlen : lh.length ≤ LOGSIZE)
    (hb : ∀ b ∈ lh, b < FSSIZE) : getHead (putHead v lh) = lh := by
  have hL : lh.length ≤ 30 := hlen
  have hB : BSIZE = 1024 := rfl
  show (range (headN (putHead v lh)).toNat).map _ = lh
  rw [headN_putHead v hlen, Int.toNat_natCast]
  refine ext_getElem (by simp) ?_
  intro i h1 h2
  have hi : lh[i]? = some lh[i] := getElem?_eq_getElem h2
  have hlt : lh[i] < 10000 := hb _ (getElem_mem h2)
  have hget := u32At_putBlocks lh (putU32 v 0 (ofNat lh.length)) 0 (by omega) i _ hi
  rw [zero_add] at hget
  rw [getElem_map, getElem_range]
  show (u32At (putBlocks (putU32 v 0 (ofNat lh.length)) 0 lh) (4 + 4 * i)).toNat = lh[i]
  rw [hget, toNat_ofNat']
  omega

/-- **The on-disk format of the log**: the header in block `start`, the log blocks behind
    it up to `start + size`. -/
def logFormat (start size : Nat) : Format Nat Block where
  head := start
  slot := fun i => start + i + 1
  enc := putHead
  dec := getHead
  fits := fun bs => bs.length ≤ LOGSIZE ∧ bs.length ≤ size - 1 ∧ ∀ b ∈ bs, b < FSSIZE
  size := size - 1
  slot_inj := fun i j _ _ h => by omega
  slot_ne_head := fun i _ h => by omega
  dec_enc := fun v _ h => getHead_putHead v h.1 h.2.2
  fits_nil := ⟨Nat.zero_le _, Nat.zero_le _, nofun⟩
  fits_le := fun _ h => h.2.1

/-- The block lies in the log area. -/
theorem inLog_iff {start size b : Nat} (hs : 0 < size) :
    InLog (logFormat start size) b ↔ start ≤ b ∧ b < start + size := by
  constructor
  · rintro (h | ⟨i, hi, h⟩)
    · have h' : b = start := h
      omega
    · have hi' : i < size - 1 := hi
      have h' : b = start + i + 1 := h
      omega
  · rintro ⟨h1, h2⟩
    by_cases hb : b = start
    · exact .inl hb
    · refine .inr ⟨b - start - 1, ?_, ?_⟩
      · show b - start - 1 < size - 1
        omega
      · show b = start + (b - start - 1) + 1
        omega

/-! ## What the functions write -/

section Steps

variable {h : HState} {d : Nat → Block} {m : Nat → Option Block} {H P : List Nat} {b : Nat}
  {G : Prop} {α : Type} {ws : List (Nat × Block)} {Q : α → HState → Prop}

/-- Read a block and go on. -/
theorem read_then (hc : Cached h d m H P) {k : Block → HCode α}
    (hG : G → b < FSSIZE ∧ b ∉ H ∧ (b ∈ P ∨ (P ++ H).length < NBUF))
    (hk : b < FSSIZE → b ∉ H → ∀ h', Frame h h' → Cached h' d m (b :: H) P →
      Emits writes G (k (shown d m b)) h' ws Q) : Emits writes G (bread b >>= k) h ws Q := by
  refine emits_then (bread_emits hc hG) ?_
  rintro v h' ⟨rfl, hlt, hH, hf, hc'⟩
  exact hk hlt hH h' hf hc'

/-- Store into a held block, write it to the disk and go on. -/
theorem write_then (hc : Cached h d m H P) (hb : b ∈ H) (v : Block) {k : HCode α}
    (hk : ∀ h', Frame h h' → Cached h' (update d b v) (update m b none) H
        (P.filter (fun a => decide (a ≠ b))) → Emits writes G k h' ws Q) :
    Emits writes G (bstore b v >>= fun _ => bwrite b >>= fun _ => k) h
      ((b, v) :: ws) Q := by
  obtain ⟨h1, hrun1, hw1, hf1, hc1⟩ := bstore_done hc hb v
  obtain ⟨h2, hrun2, hw2, hf2, hc2⟩ := bwrite_done hc1 hb
  have hv : shown d (update m b (some v)) b = v := by
    show (update m b (some v) b).getD (d b) = v
    rw [update_self]; rfl
  have hm : update (update m b (some v)) b none = update m b none :=
    update_idem ..
  rw [hv] at hw2 hc2
  rw [hm] at hc2
  refine emits_then (P := fun _ h' => h1 = h') (emits_done hrun1 hw1 rfl) ?_
  rintro _ _ rfl
  refine emits_bind (P := fun _ h' => h2 = h') (emits_event hrun2 hw2 rfl) ?_
  rintro _ _ rfl
  exact hk h2 (hf1.trans hf2) hc2

/-- Release a held block and go on. -/
theorem release_then (hc : Cached h d m H P) (hb : b ∈ H) (hsafe : b ∈ P ∨ m b = none) {H' : List Nat}
    (hH : H.filter (fun a => decide (a ≠ b)) = H') {k : HCode α}
    (hk : ∀ h', Frame h h' → Cached h' d m H' P → Emits writes G k h' ws Q) :
    Emits writes G (brelse b >>= fun _ => k) h ws Q := by
  obtain ⟨h1, hrun1, hw1, hf1, hc1⟩ := brelse_done hc hb hsafe
  refine emits_then (P := fun _ h' => h1 = h') (emits_done hrun1 hw1 rfl) ?_
  rintro _ _ rfl
  exact hk h1 hf1 (hH ▸ hc1)

end Steps

section Loops

variable {h : HState} {d : Nat → Block} {m : Nat → Option Block} {P : List Nat} {start : Nat}
  {G : Prop}

theorem filter_ne_self {P : List Nat} {b : Nat} (hb : b ∉ P) : P.filter (fun a => decide (a ≠ b)) = P := by
  rw [filter_eq_self]
  intro a ha
  have : a ≠ b := by rintro rfl; exact hb ha
  simpa using this

theorem update_none_self {m : Nat → Option Block} {b : Nat} (hb : m b = none) : update m b none = m := by
  rw [← hb]; exact update_eq_self b m

theorem getLog_then {α : Type} {f : Log → HCode α} {ws : List (Nat × Block)} {Q : α → HState → Prop}
    (hf : Emits writes G (f h.log) h ws Q) : Emits writes G (getLog >>= f) h ws Q := hf

/-- **`write_head`** writes the list of the in-memory header into the header block. -/
theorem writeHead_emits {lh : List Nat} (hc : Cached h d m [] P) (hstart : h.log.start = start)
    (hlh : h.log.lh = lh) (hP : start ∉ P) (hm : m start = none) (hG : G → start < FSSIZE ∧ P.length < NBUF) :
    Emits writes G writeHead h [(start, putHead (d start) lh)] (fun _ h' => Frame h h' ∧
        Cached h' (update d start (putHead (d start) lh)) m [] P) := by
  subst hstart hlh
  refine getLog_then ?_
  refine read_then hc ?_ ?_
  · intro hg
    refine ⟨(hG hg).1, (nomatch ·), .inr ?_⟩
    rw [append_nil]; exact (hG hg).2
  intro _ _ h1 hf1 hc1
  have hv : shown d m h.log.start = d h.log.start := by
    show (m h.log.start).getD _ = _
    rw [hm]; rfl
  rw [hv]
  refine write_then hc1 (mem_cons_self ..) _ ?_
  intro h2 hf2 hc2
  rw [filter_ne_self hP, update_none_self hm] at hc2
  obtain ⟨h3, hrun3, hw3, hf3, hc3⟩ := brelse_done hc2 (mem_cons_self ..) (.inr hm)
  refine emits_done hrun3 hw3 ⟨(hf1.trans hf2).trans hf3, ?_⟩
  simpa using hc3

/-- The writes of `install_trans`: each home block gets what its log block holds then. -/
def installW (start : Nat) : (Nat → Block) → Nat → List Nat → List (Nat × Block)
  | _, _, [] => []
  | d, tail, b :: bs =>
    (b, d (start + tail + 1)) ::
      installW start (update d b (d (start + tail + 1))) (tail + 1) bs

/-- The overlay without the blocks `bs`. -/
def forget (m : Nat → Option Block) (bs : List Nat) : Nat → Option Block :=
  fun a => if a ∈ bs then none else m a

theorem forget_cons (m : Nat → Option Block) (b : Nat) (bs : List Nat) :
    forget (update m b none) bs = forget m (b :: bs) := by
  funext a
  show (if a ∈ bs then none else update m b none a) = if a ∈ b :: bs then none else m a
  by_cases hab : a = b
  · subst hab
    rw [update_self, if_pos (mem_cons_self ..)]
    split_ifs with hmem
    · rfl
    · rfl
  · simp [mem_cons, hab]

/-- **`install_trans`**, from index `tail` on. The log blocks it reads must not be dirty. -/
theorem installLoop_emits (start : Nat) : ∀ (bs : List Nat) (tail : Nat) (h : HState) (d : Nat → Block)
    (m : Nat → Option Block) (P : List Nat), Cached h d m [] P →
    (∀ j, tail ≤ j → j < tail + bs.length → start + j + 1 ∉ P ∧ m (start + j + 1) = none) →
    (G → P.length < NBUF ∧ start + tail + bs.length < FSSIZE ∧
      (∀ b ∈ bs, b < FSSIZE ∧ (b ≤ start ∨ start + tail + bs.length < b) ∧ (b ∈ P ∨ P.length + 1 < NBUF))) →
    Emits writes G (installLoop start tail bs) h (installW start d tail bs)
      (fun _ h' => Frame h h' ∧ Cached h' (applyW (installW start d tail bs) d) (forget m bs) []
        (P.filter (fun a => decide (a ∉ bs)))) := by
  intro bs
  induction bs with
  | nil =>
    intro tail h d m P hc _ _
    refine emits_pure ⟨Frame.refl h, ?_⟩
    have h1 : forget m [] = m := by funext a; exact if_neg (by simp)
    have h2 : P.filter (fun a => decide (a ∉ ([] : List Nat))) = P := by simp
    rw [h1, h2]
    exact hc
  | cons b bs ih =>
    intro tail h d m P hc hslot hG
    rw [length_cons] at hslot hG
    obtain ⟨hsP, hsm⟩ := hslot tail (le_refl _) (by omega)
    refine read_then hc ?_ ?_
    · intro hg
      refine ⟨by have := (hG hg).2.1; omega, (nomatch ·), .inr ?_⟩
      rw [append_nil]; exact (hG hg).1
    intro _ _ h1 hf1 hc1
    refine read_then hc1 ?_ ?_
    · intro hg
      obtain ⟨_, _, hbs⟩ := hG hg
      obtain ⟨hb1, hb2, hb3⟩ := hbs b (mem_cons_self ..)
      refine ⟨hb1, ?_, ?_⟩
      · rw [mem_singleton]; omega
      · rwa [length_append]
    intro _ hbs h2 hf2 hc2
    rw [mem_singleton] at hbs
    have hv : shown d m (start + tail + 1) = d (start + tail + 1) := by
      show (m _).getD _ = _
      rw [hsm]; rfl
    rw [hv]
    refine write_then hc2 (mem_cons_self ..) _ ?_
    intro h3 hf3 hc3
    have hms : update m b none (start + tail + 1) = none := by
      rw [update_of_ne (Ne.symm hbs)]; exact hsm
    refine release_then hc3 (by simp) (.inr hms) (show _ = [b] by simp [hbs]) ?_
    intro h4 hf4 hc4
    refine release_then hc4 (by simp) (.inr (update_self ..)) (show _ = [] by simp) ?_
    intro h5 hf5 hc5
    refine emits_mono (ih (tail + 1) h5 _ _ _ hc5 ?_ ?_) ?_
    · intro j h1 h2
      obtain ⟨hjP, hjm⟩ := hslot j (by omega) (by omega)
      refine ⟨fun hmem => hjP (mem_of_mem_filter hmem), ?_⟩
      rw [update_apply]
      split_ifs
      · rfl
      · exact hjm
    · intro hg
      obtain ⟨hlen, hend, hbs'⟩ := hG hg
      have hle : (P.filter (fun a => decide (a ≠ b))).length ≤ P.length :=
        length_filter_le _ _
      refine ⟨by omega, by omega, ?_⟩
      intro c hc'
      obtain ⟨hc1', hc2', hc3'⟩ := hbs' c (mem_cons_of_mem _ hc')
      refine ⟨hc1', by omega, ?_⟩
      -- a pinned block that has gone home leaves a free buffer behind
      rcases (hbs' b (mem_cons_self ..)).2.2 with hbP | hroom
      · have hlt : (P.filter (fun a => decide (a ≠ b))).length < P.length :=
          length_filter_lt_length_iff_exists.mpr ⟨b, hbP, by simp⟩
        exact .inr (by omega)
      · exact .inr (by omega)
    · rintro _ h6 ⟨hf6, hc6⟩
      refine ⟨((((hf1.trans hf2).trans hf3).trans hf4).trans hf5).trans hf6, ?_⟩
      rw [forget_cons, filter_filter] at hc6
      have hP6 : P.filter (fun a => decide (a ∉ bs) && decide (a ≠ b)) = P.filter (fun a => decide (a ∉ b :: bs)) := by
        refine filter_congr ?_
        intro a _
        simp [mem_cons, Bool.and_comm]
      rw [hP6] at hc6
      exact hc6

/-- **`write_log`**, from index `tail` on: the cached contents of the pinned blocks go to
    the log blocks. -/
theorem writeLogLoop_emits {size : Nat} : ∀ (tx : List (Nat × Block)) (tail : Nat) (h : HState)
    (d : Nat → Block), Cached h d m [] P → (∀ w ∈ tx, w.1 ∈ P ∧ m w.1 = some w.2) →
    (∀ j, tail ≤ j → j < tail + tx.length → start + j + 1 ∉ P ∧ m (start + j + 1) = none) →
    (G → P.length < NBUF ∧ start + tail + tx.length < FSSIZE ∧ ∀ w ∈ tx, w.1 < FSSIZE) →
    Emits writes G (writeLogLoop start tail (tx.map fst)) h
      (slotW (logFormat start size) tail (tx.map snd)) (fun _ h' => Frame h h' ∧
        Cached h' (applyW (slotW (logFormat start size) tail (tx.map snd)) d) m [] P) := by
  intro tx
  induction tx with
  | nil => intro tail h d hc _ _ _; exact emits_pure ⟨Frame.refl h, hc⟩
  | cons w tx ih =>
    intro tail h d hc htx hslot hG
    rw [length_cons] at hslot hG
    obtain ⟨hsP, hsm⟩ := hslot tail (le_refl _) (by omega)
    obtain ⟨hwP, hwm⟩ := htx w (mem_cons_self ..)
    have hws : w.1 ≠ start + tail + 1 := by
      intro heq; rw [heq] at hwP; exact hsP hwP
    refine read_then hc ?_ ?_
    · intro hg
      refine ⟨by have := (hG hg).2.1; omega, (nomatch ·), .inr ?_⟩
      rw [append_nil]; exact (hG hg).1
    intro _ _ h1 hf1 hc1
    refine read_then hc1 ?_ ?_
    · intro hg
      refine ⟨(hG hg).2.2 w (mem_cons_self ..), ?_, .inl hwP⟩
      rw [mem_singleton]; exact hws
    intro _ _ h2 hf2 hc2
    have hv : shown d m w.1 = w.2 := by
      show (m w.1).getD _ = _
      rw [hwm]; rfl
    rw [hv]
    refine write_then hc2 (by simp) _ ?_
    intro h3 hf3 hc3
    rw [filter_ne_self hsP, update_none_self hsm] at hc3
    refine release_then hc3 (mem_cons_self ..) (.inl hwP)
      (show _ = [start + tail + 1] by simp [Ne.symm hws]) ?_
    intro h4 hf4 hc4
    refine release_then hc4 (by simp) (.inr hsm) (show _ = [] by simp) ?_
    intro h5 hf5 hc5
    refine emits_mono (ih (tail + 1) h5 _ hc5 (fun u hu => htx u (mem_cons_of_mem _ hu))
      (fun j h1 h2 => hslot j (by omega) (by omega)) ?_) ?_
    · intro hg
      obtain ⟨g1, g2, g3⟩ := hG hg
      exact ⟨g1, by omega, fun u hu => g3 u (mem_cons_of_mem _ hu)⟩
    · rintro _ h6 ⟨hf6, hc6⟩
      exact ⟨((((hf1.trans hf2).trans hf3).trans hf4).trans hf5).trans hf6, hc6⟩

end Loops

/-! ## Recovery and commit -/

/-- Nothing is dirty. -/
def clean : Nat → Option Block := fun _ => none

section Whole

variable {h : HState} {d : Nat → Block} {m : Nat → Option Block} {H P : List Nat} {G : Prop}

/-- The cache does not look at the log. -/
theorem cached_log (hc : Cached h d m H P) (l : Log) : Cached { h with log := l } d m H P :=
  ⟨hc.disk, hc.len, hc.uniq, hc.idle, hc.entry, hc.has, hc.overlay⟩

/-- The state is that of `h` but for the disk, the cache and the log. -/
structure LogFrame (h : HState) (l : Log) (h' : HState) : Prop where
  base : h'.base = h.base
  log : h'.log = l

theorem LogFrame.of_frame {h h' : HState} (f : Frame h h') : LogFrame h h.log h' :=
  ⟨f.base, f.log⟩

theorem LogFrame.step {h h1 h2 : HState} {l : Log} (f : LogFrame h l h1) (g : Frame h1 h2) : LogFrame h l h2 :=
  ⟨g.base.trans f.base, g.log.trans f.log⟩

theorem LogFrame.setLog {h h1 : HState} {l : Log} (f : LogFrame h l h1) (l' : Log) :
    LogFrame h l' { h1 with log := l' } :=
  ⟨f.base, rfl⟩

theorem getHead_length (v : Block) : (getHead v).length = (headN v).toNat := by
  show ((range (headN v).toNat).map _).length = _
  rw [length_map, length_range]

/-- **`read_head`** on a clean cache. -/
theorem readHead_emits (hc : Cached h d clean [] [])
    (hG : G → h.log.start < FSSIZE ∧ (getHead (d h.log.start)).length ≤ LOGSIZE) :
    Emits writes G readHead h [] (fun _ h' =>
      LogFrame h { h.log with lh := getHead (d h.log.start) } h' ∧ Cached h' d clean [] []) := by
  refine getLog_then ?_
  refine read_then hc (fun hg => ⟨(hG hg).1, (nomatch ·), .inr (by decide)⟩) ?_
  intro _ _ h1 hf1 hc1
  have hv : shown d clean h.log.start = d h.log.start := rfl
  rw [hv]
  by_cases hn : (LOGSIZE : Int) < headN (d h.log.start)
  · have hstop : (hstop (.outside "log header") : HCode Unit) h1 = .stop (.outside "log header") h1 :=
      rfl
    rw [if_pos hn]
    refine emits_stop (code_bind_of_stop hstop) ?_ rfl
    · intro hg
      have := (hG hg).2
      rw [getHead_length] at this
      omega
  · rw [if_neg hn]
    refine emits_then (P := fun _ h' =>
      { h1 with log := { h1.log with lh := getHead (d h.log.start) } } = h')
      (emits_done rfl rfl rfl) ?_
    rintro _ _ rfl
    obtain ⟨h2, hrun2, hw2, hf2, hc2⟩ :=
      brelse_done (cached_log hc1 _) (mem_cons_self ..) (.inr rfl)
    have hlog : ({ h1.log with lh := getHead (d h.log.start) } : Log)
        = { h.log with lh := getHead (d h.log.start) } := by rw [hf1.log]
    refine emits_done hrun2 hw2 ⟨?_, by simpa using hc2⟩
    rw [← hlog]
    exact ((LogFrame.of_frame hf1).setLog _).step hf2

/-- Emptying the in-memory header and writing it out. -/
theorem clearHead_emits {h1 : HState} {lh : List Nat}
    (hf : LogFrame h { h.log with lh := lh } h1) (hc : Cached h1 d clean [] [])
    (hG : G → h.log.start < FSSIZE) :
    Emits writes G (modLog (fun l => { l with lh := [] }) >>= fun _ => writeHead) h1
      [(h.log.start, putHead (d h.log.start) [])]
      (fun _ h' => LogFrame h { h.log with lh := [] } h' ∧
        Cached h' (update d h.log.start (putHead (d h.log.start) [])) clean [] []) := by
  refine emits_then (P := fun _ h' => { h1 with log := { h1.log with lh := [] } } = h')
    (emits_done rfl rfl rfl) ?_
  rintro _ _ rfl
  have hlog : ({ h1.log with lh := [] } : Log) = { h.log with lh := [] } := by rw [hf.log]
  rw [hlog]
  refine emits_mono (writeHead_emits (cached_log hc _) rfl rfl (nomatch ·) rfl
    fun hg => ⟨hG hg, by decide⟩) ?_
  rintro _ h2 ⟨hf2, hc2⟩
  exact ⟨(hf.setLog _).step hf2, hc2⟩

/-- The writes of `recover_from_log`. -/
def recoverWrites (start : Nat) (d : Nat → Block) : List (Nat × Block) :=
  installW start d 0 (getHead (d start)) ++
    [(start, putHead (applyW (installW start d 0 (getHead (d start))) d start) [])]

/-- **`recover_from_log`** on a clean cache, whatever the header block holds. -/
theorem recover_emits {start : Nat} (hc : Cached h d clean [] []) (hstart : h.log.start = start)
    (hG : G → start + (getHead (d start)).length < FSSIZE ∧
      (getHead (d start)).length ≤ LOGSIZE ∧ ∀ b ∈ getHead (d start), b < FSSIZE ∧
        (b ≤ start ∨ start + (getHead (d start)).length < b)) :
    Emits writes G recoverFromLog h (recoverWrites start d) (fun _ h' => LogFrame h { h.log with lh := [] } h' ∧
        Cached h' (applyW (recoverWrites start d) d) clean [] []) := by
  subst hstart
  refine emits_then (readHead_emits hc fun hg => ?_) ?_
  · obtain ⟨g1, g2, _⟩ := hG hg
    exact ⟨by omega, g2⟩
  rintro _ h1 ⟨hf1, hc1⟩
  refine emits_bind (P := fun _ h' => LogFrame h { h.log with lh := getHead (d h.log.start) } h' ∧
      Cached h' (applyW (installW h.log.start d 0 (getHead (d h.log.start))) d) clean [] []) ?_ ?_
  · refine getLog_then ?_
    rw [hf1.log]
    refine emits_mono (installLoop_emits (G := G) _ _ 0 h1 d clean [] hc1 (fun _ _ _ => ⟨(nomatch ·), rfl⟩) ?_) ?_
    · intro hg
      obtain ⟨g1, _, g3⟩ := hG hg
      refine ⟨by decide, g1, ?_⟩
      intro b hb
      obtain ⟨g4, g5⟩ := g3 b hb
      exact ⟨g4, g5, .inr (by decide)⟩
    · rintro _ h2 ⟨hf2, hc2⟩
      refine ⟨hf1.step hf2, ?_⟩
      have hforget : forget clean (getHead (d h.log.start)) = clean := by
        funext a
        show (if a ∈ getHead (d h.log.start) then none else none) = none
        rw [ite_self]
      rw [hforget] at hc2
      exact hc2
  · rintro _ h2 ⟨hf2, hc2⟩
    refine emits_mono (clearHead_emits hf2 hc2 fun hg => ?_) ?_
    · have := (hG hg).1
      omega
    · rintro _ h3 ⟨hf3, hc3⟩
      refine ⟨hf3, ?_⟩
      rw [recoverWrites, applyW_append]
      exact hc3

/-- When the homes listed by the header lie outside the log, `install_trans` writes what
    the log blocks held at the start. -/
theorem installW_eq_logged {start size : Nat} (bs : List Nat) (tail : Nat) (d : Nat → Block)
    (hb : (∀ b ∈ bs, b ≤ start ∨ start + tail + bs.length < b)) :
    installW start d tail bs = logged (logFormat start size) d tail bs := by
  induction bs generalizing tail d with
  | nil => rfl
  | cons b bs ih =>
    rw [length_cons] at hb
    show (b, d (start + tail + 1)) :: installW start _ (tail + 1) bs
      = (b, d (start + tail + 1)) :: logged (logFormat start size) d (tail + 1) bs
    rw [ih (tail + 1) _ fun c hc => by
      have := hb c (mem_cons_of_mem _ hc)
      omega]
    congr 1
    refine logged_congr bs (tail + 1) ?_
    intro j h1 h2
    have hbj : start + j + 1 ≠ b := by
      have := hb b (mem_cons_self ..)
      omega
    exact update_of_ne hbj _ _

/-- The writes of `commit`: none if nothing is logged. -/
def commitWrites (start size : Nat) (d : Nat → Block) (tx : List (Nat × Block)) :
    List (Nat × Block) :=
  if tx = [] then []
  else commitW (logFormat start size) tx (d start) (putHead (d start) (tx.map fst))

theorem head_notMem_slotW {start size : Nat} (d : Nat → Block) (vs : List Block) :
    applyW (slotW (logFormat start size) 0 vs) d start = d start := by
  refine applyW_of_notMem ?_ d
  intro hmem
  obtain ⟨j, _, _, hj⟩ := mem_slotW (logFormat start size) vs 0 hmem
  have hj' : start = start + j + 1 := hj
  omega

/-- The second half of `commit`: the log blocks go home and the header is cleared. -/
theorem finish_emits {start : Nat} {tx : List (Nat × Block)} {h1 : HState} {e : Nat → Block}
    (hf : Frame h h1) (hstart : h.log.start = start) (hlh : h.log.lh = tx.map fst)
    (hc : Cached h1 e m [] (tx.map fst)) (hinst : installW start e 0 (tx.map fst) = tx)
    (hhead : start ∉ tx.map fst) (hout : ∀ j, j < tx.length → start + j + 1 ∉ tx.map fst)
    (hnone : ∀ a, a ∉ tx.map fst → m a = none)
    (hG : G → tx.length < NBUF ∧ start + tx.length < FSSIZE ∧ ∀ b ∈ tx.map fst, b < FSSIZE) :
    Emits writes G (installTrans >>= fun _ =>
        modLog (fun l => { l with lh := [] }) >>= fun _ => writeHead) h1
      (tx ++ [(start, putHead (e start) [])])
      (fun _ h' => LogFrame h { h.log with lh := [] } h' ∧
        Cached h' (update (applyW tx e) start (putHead (e start) [])) clean [] []) := by
  subst hstart
  refine emits_bind (P := fun _ h' => LogFrame h { h.log with lh := tx.map fst } h' ∧
    Cached h' (applyW tx e) clean [] []) ?_ ?_
  · refine getLog_then ?_
    have hloop := installLoop_emits (G := G) h.log.start (tx.map fst) 0 h1 e m _ hc ?_ ?_
    · rw [hinst] at hloop
      rw [hf.log, hlh]
      refine emits_mono hloop ?_
      rintro _ h2 ⟨hf2, hc2⟩
      have hlog : ({ h.log with lh := tx.map fst } : Log) = h.log := by rw [← hlh]
      have hforget : forget m (tx.map fst) = clean := by
        funext a
        show (if a ∈ tx.map fst then none else m a) = none
        split_ifs with ha
        · rfl
        · exact hnone a ha
      have hfilter : (tx.map fst).filter (fun a => decide (a ∉ tx.map fst)) = [] := by
        rw [filter_eq_nil_iff]
        intro a ha
        simpa using ha
      rw [hforget, hfilter] at hc2
      rw [hlog]
      exact ⟨(LogFrame.of_frame hf).step hf2, hc2⟩
    · intro j _ hj
      rw [length_map, zero_add] at hj
      have := hout j hj
      exact ⟨this, hnone _ this⟩
    · intro hg
      obtain ⟨g1, g2, g3⟩ := hG hg
      rw [length_map]
      refine ⟨g1, by omega, ?_⟩
      intro b hb
      refine ⟨g3 b hb, ?_, .inl hb⟩
      by_contra hcon
      have hj : b = h.log.start + (b - h.log.start - 1) + 1 := by omega
      have := hout (b - h.log.start - 1) (by omega)
      rw [← hj] at this
      exact this hb
  · rintro _ h2 ⟨hf2, hc2⟩
    have hstart' : applyW tx e h.log.start = e h.log.start := applyW_of_notMem hhead e
    rw [← hstart']
    exact clearHead_emits hf2 hc2 fun hg => by have := (hG hg).2.1; omega

/-- **`commit`** of a transaction whose new contents are in the cache. -/
theorem commit_emits {start size : Nat} {tx : List (Nat × Block)} (hstart : h.log.start = start)
    (hlh : h.log.lh = tx.map fst) (hc : Cached h d m [] (tx.map fst))
    (hm : ∀ w ∈ tx, m w.1 = some w.2) (hfit : Fits (logFormat start size) tx)
    (hclear : getHead (d start) = []) (hG : G → tx.length < NBUF ∧ start + tx.length < FSSIZE) :
    Emits writes G commit h (commitWrites start size d tx) (fun _ h' => LogFrame h { h.log with lh := [] } h' ∧
        Cached h' (applyW (commitWrites start size d tx) d) clean [] []) := by
  have hlen : tx.length ≤ size - 1 := hfit.length_le
  -- log blocks and header are not among the blocks of the transaction
  have hout : ∀ j, j < tx.length → start + j + 1 ∉ tx.map fst := by
    intro j hj hmem
    exact hfit.home _ hmem (.inr ⟨j, by show j < size - 1; omega, rfl⟩)
  have hhead : start ∉ tx.map fst := fun hmem => hfit.home _ hmem (.inl rfl)
  have hnone : ∀ a, a ∉ tx.map fst → m a = none := by
    intro a ha
    cases hma : m a with
    | none => rfl
    | some v =>
      rcases hc.overlay a (by rw [hma]; simp) with h1 | h1
      · exact absurd h1 ha
      · cases h1
  refine getLog_then ?_
  rw [hlh, length_map]
  by_cases htx : tx = []
  · -- an empty transaction: `commit` does nothing
    subst htx
    rw [if_neg (by simp), commitWrites, if_pos rfl]
    refine emits_pure ⟨?_, ?_⟩
    · have hl : ({ h.log with lh := [] } : Log) = h.log := by
        have : h.log.lh = [] := hlh
        rw [← this]
      rw [hl]
      exact LogFrame.of_frame (Frame.refl h)
    · have hm0 : m = clean := funext fun a => hnone a (by simp)
      rw [← hm0]
      exact hc
  · have hpos : 0 < tx.length := length_pos_iff.mpr htx
    rw [if_pos hpos, commitWrites, if_neg htx]
    refine emits_bind (P := fun _ h' => Frame h h' ∧ Cached h'
        (applyW (slotW (logFormat start size) 0 (tx.map snd)) d) m [] (tx.map fst)) ?_ ?_
    · refine getLog_then ?_
      rw [hlh, hstart]
      refine writeLogLoop_emits tx 0 h d hc ?_ ?_ ?_
      · intro w hw; exact ⟨mem_map.mpr ⟨w, hw, rfl⟩, hm w hw⟩
      · intro j _ hj
        have := hout j (by omega)
        exact ⟨this, hnone _ this⟩
      · intro hg
        obtain ⟨g1, g2⟩ := hG hg
        refine ⟨by rw [length_map]; exact g1, by omega, ?_⟩
        intro w hw
        exact hfit.fits.2.2 _ (mem_map.mpr ⟨w, hw, rfl⟩)
    rintro _ h1 ⟨hf1, hc1⟩
    -- the commit point
    have hd1 : applyW (slotW (logFormat start size) 0 (tx.map snd)) d start = d start :=
      head_notMem_slotW d _
    have hpend : Pending (logFormat start size) d d := ⟨hclear, fun _ _ => rfl⟩
    obtain ⟨_, hlogged, _⟩ := commit_point hfit hpend (d start) rfl
    have hinst : ∀ e, update (applyW (slotW (logFormat start size) 0 (tx.map snd)) d)
        start (putHead (d start) (tx.map fst)) = e →
        installW start e 0 (tx.map fst) = tx := by
      rintro e rfl
      refine (installW_eq_logged _ 0 _ ?_).trans hlogged
      intro b hb
      rw [length_map]
      by_contra hcon
      have hj : b = start + (b - start - 1) + 1 := by omega
      have := hout (b - start - 1) (by omega)
      rw [← hj] at this
      exact this hb
    have hstart1 : h1.log.start = start := by rw [hf1.log]; exact hstart
    have hlh1 : h1.log.lh = tx.map fst := by rw [hf1.log]; exact hlh
    have hhd := writeHead_emits (G := G) hc1 hstart1 hlh1 hhead (hnone _ hhead) fun hg => by
        obtain ⟨g1, g2⟩ := hG hg
        rw [length_map]
        exact ⟨by omega, g1⟩
    rw [hd1] at hhd
    refine emits_bind hhd ?_
    rintro _ h2 ⟨hf2, hc2⟩
    have hfin := finish_emits (G := G) (hf1.trans hf2) hstart hlh hc2 (hinst _ rfl) hhead hout hnone
      fun hg => ⟨(hG hg).1, (hG hg).2, hfit.fits.2.2⟩
    rw [update_self] at hfin
    refine emits_mono hfin ?_
    rintro _ h3 ⟨hf3, hc3⟩
    refine ⟨hf3, ?_⟩
    show Cached h3 (applyW (slotW (logFormat start size) 0 (tx.map snd) ++
      (start, putHead (d start) (tx.map fst)) ::
        (tx ++ [(start, putHead (putHead (d start) (tx.map fst)) [])])) d) clean [] []
    rw [applyW_append, applyW_cons, applyW_append]
    exact hc3

end Whole

end Xv6Log
