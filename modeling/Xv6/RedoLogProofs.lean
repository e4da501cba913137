import Mathlib.Data.List.Nodup

/-!
# Redo logs — crash atomicity of write-ahead lists of blocks

A store maps addresses to values and changes by single writes, each of which happens
entirely or not at all. A **redo log** makes a list of writes (a transaction) atomic over
crashes: the new values are first written to log slots, then one write of a header says
which addresses they belong to, then the values are written home, then the header is
cleared. Recovery reads the header, writes the logged values home and clears the header.

The format of the header is a parameter (`Format`), so the argument is about no particular
disk. A crash can leave behind a store of one of two kinds:

* `Pending` — the header is clear and nothing has been written home;
* `Committed` — the header lists the transaction, its slots hold the new values, and some
  of the values may already be home; or the header is clear and all of them are.

`pending_commit` and `committed_commit` say where every prefix of the commit's writes ends
up, `pending_recover` and `committed_recover` that every prefix of a recovery stays where
it is, and `recover_home_pending` and `recover_home_committed` what a complete recovery
leaves at home.
-/

namespace RedoLog

open Function List Prod

variable {A V : Type}

/-! ## The log -/

/-- How a redo log lies in a store: the address of its header, the addresses of its slots,
    and the way a header value lists addresses. A header is written over an old value
    `v`, of which `enc` may keep parts; `fits` says which lists a header can hold. -/
structure Format (A V : Type) where
  head : A
  slot : Nat → A
  enc : V → List A → V
  dec : V → List A
  fits : List A → Prop
  size : Nat
  slot_inj : ∀ i j, i < size → j < size → slot i = slot j → i = j
  slot_ne_head : ∀ i, i < size → slot i ≠ head
  dec_enc : ∀ v as, fits as → dec (enc v as) = as
  fits_nil : fits []
  fits_le : ∀ as, fits as → as.length ≤ size

variable (F : Format A V)

/-- The address belongs to the log. -/
def InLog (a : A) : Prop := a = F.head ∨ ∃ i, i < F.size ∧ a = F.slot i

/-- The writes of values to the slots from slot `i` on. -/
def slotW (F : Format A V) : Nat → List V → List (A × V)
  | _, [] => []
  | i, v :: vs => (F.slot i, v) :: slotW F (i + 1) vs

/-- A transaction the log can hold: distinct home addresses, none of them in the log. -/
structure Fits (tx : List (A × V)) : Prop where
  fits : F.fits (tx.map fst)
  nodup : (tx.map fst).Nodup
  home : ∀ a ∈ tx.map fst, ¬ InLog F a

/-- The values in the slots named by the addresses of a header. -/
def logged (d : A → V) : Nat → List A → List (A × V)
  | _, [] => []
  | i, a :: as => (a, d (F.slot i)) :: logged d (i + 1) as

/-- The writes of a recovery: the logged values home, then a clear header. `v` is the
    header value the clearing starts from. -/
def recoverW (d : A → V) (v : V) : List (A × V) :=
  logged F d 0 (F.dec (d F.head)) ++ [(F.head, F.enc v [])]

/-- The writes of a commit. `v` and `v'` are the values that the two header writes start
    from. -/
def commitW (tx : List (A × V)) (v v' : V) : List (A × V) :=
  slotW F 0 (tx.map snd) ++ (F.head, F.enc v (tx.map fst)) ::
    (tx ++ [(F.head, F.enc v' [])])

theorem logged_map_fst (d : A → V) : ∀ (as : List A) (i : Nat), (logged F d i as).map fst = as := by
  intro as
  induction as with
  | nil => intro i; rfl
  | cons a as ih => intro i; exact congrArg (a :: ·) (ih (i + 1))

theorem length_slotW : ∀ (vs : List V) (i : Nat), (slotW F i vs).length = vs.length := by
  intro vs
  induction vs with
  | nil => intro i; rfl
  | cons v vs ih => intro i; exact congrArg Nat.succ (ih (i + 1))

theorem mem_slotW {x : A} (vs : List V) (i : Nat) (h : x ∈ (slotW F i vs).map fst) :
    ∃ j, i ≤ j ∧ j < i + vs.length ∧ x = F.slot j := by
  induction vs generalizing i with
  | nil => cases h
  | cons v vs ih =>
    rcases mem_cons.mp h with heq | hmem
    · exact ⟨i, Nat.le_refl _, by rw [length_cons]; omega, heq⟩
    · obtain ⟨j, h1, h2, h3⟩ := ih (i + 1) hmem
      exact ⟨j, by omega, by rw [length_cons]; omega, h3⟩

/-- Slots that hold the values of a transaction, from slot `i` on, read back as it. -/
theorem logged_eq {d : A → V} (tx : List (A × V)) (i : Nat)
    (h : (∀ (j : Nat) (w : A × V), tx[j]? = some w → d (F.slot (i + j)) = w.2)) : logged F d i (tx.map fst) = tx := by
  induction tx generalizing i with
  | nil => rfl
  | cons w tx ih =>
    have h0 : d (F.slot i) = w.2 := h 0 w rfl
    have ht : logged F d (i + 1) (tx.map fst) = tx := by
      refine ih (i + 1) ?_
      intro j w' hj
      have := h (j + 1) w' hj
      rwa [show i + (j + 1) = i + 1 + j by omega] at this
    show (w.1, d (F.slot i)) :: logged F d (i + 1) (tx.map fst) = w :: tx
    rw [ht, h0]

theorem logged_congr {F : Format A V} {d e : A → V} (as : List A) (i : Nat)
    (h : (∀ j, i ≤ j → j < i + as.length → d (F.slot j) = e (F.slot j))) : logged F d i as = logged F e i as := by
  induction as generalizing i with
  | nil => rfl
  | cons a as ih =>
    have h0 := h i (Nat.le_refl _) (by rw [length_cons]; omega)
    have ht := ih (i + 1) (fun j h1 h2 => h j (by omega) (by rw [length_cons]; omega))
    show (a, d (F.slot i)) :: logged F d (i + 1) as = (a, e (F.slot i)) :: logged F e (i + 1) as
    rw [h0, ht]

theorem inLog_head {F : Format A V} : InLog F F.head := Or.inl rfl

theorem Fits.length_le {F : Format A V} {tx : List (A × V)} (hfit : Fits F tx) : tx.length ≤ F.size := by
  have := F.fits_le _ hfit.fits
  rwa [length_map] at this

/-! ## Writes -/

variable [DecidableEq A]

/-- Apply a list of writes to a store, the first one first. -/
def applyW : List (A × V) → (A → V) → (A → V)
  | [], d => d
  | w :: ws, d => applyW ws (update d w.1 w.2)

@[simp] theorem applyW_nil (d : A → V) : applyW [] d = d := rfl

@[simp] theorem applyW_cons (w : A × V) (ws : List (A × V)) (d : A → V) :
    applyW (w :: ws) d = applyW ws (update d w.1 w.2) := rfl

theorem applyW_append (ws vs : List (A × V)) (d : A → V) : applyW (ws ++ vs) d = applyW vs (applyW ws d) := by
  induction ws generalizing d with
  | nil => rfl
  | cons w ws ih => exact ih _

/-- An address that no write names keeps its value. -/
theorem applyW_of_notMem {ws : List (A × V)} {x : A} (h : x ∉ ws.map fst) (d : A → V) : applyW ws d x = d x := by
  induction ws generalizing d with
  | nil => rfl
  | cons w ws ih =>
    rw [map_cons, mem_cons, not_or] at h
    rw [applyW_cons, ih h.2, update_of_ne h.1]

/-- Replaying a list forgets what the addresses it names held before. -/
theorem applyW_congr {ws : List (A × V)} {d e : A → V} {x : A}
    (h : x ∉ ws.map fst → d x = e x) : applyW ws d x = applyW ws e x := by
  induction ws generalizing d e with
  | nil => exact h (by simp)
  | cons w ws ih =>
    refine ih ?_
    intro hx
    by_cases hw : x = w.1
    · rw [hw, update_self, update_self]
    · rw [update_of_ne hw, update_of_ne hw]
      refine h ?_
      rw [map_cons, mem_cons, not_or]
      exact ⟨hw, hx⟩

/-- After the slot writes the slots hold the values. -/
theorem applyW_slotW (d : A → V) : ∀ (vs : List V) (i : Nat), i + vs.length ≤ F.size →
    ∀ (j : Nat) (v : V), vs[j]? = some v → applyW (slotW F i vs) d (F.slot (i + j)) = v := by
  intro vs
  induction vs generalizing d with
  | nil => intro i _ j v hj; cases hj
  | cons u vs ih =>
    intro i hi j v hj
    rw [length_cons] at hi
    show applyW (slotW F (i + 1) vs) (update d (F.slot i) u) (F.slot (i + j)) = v
    cases j with
    | zero =>
      have hout : F.slot i ∉ (slotW F (i + 1) vs).map fst := by
        intro hmem
        obtain ⟨j, h1, h2, h3⟩ := mem_slotW F vs (i + 1) hmem
        have := F.slot_inj i j (by omega) (by omega) h3
        omega
      have huv : u = v := by simpa using hj
      rw [show i + 0 = i from rfl, applyW_of_notMem hout, update_self, huv]
    | succ j =>
      have := ih (update d (F.slot i) u) (i + 1) (by omega) j v (by simpa using hj)
      rwa [show i + (j + 1) = i + 1 + j by omega]

/-! ## Phases -/

/-- The phases that a committed transaction can be in. -/
def Committed (old : A → V) (tx : List (A × V)) (d : A → V) : Prop :=
  (F.dec (d F.head) = tx.map fst ∧ logged F d 0 (tx.map fst) = tx ∧ ∀ a, ¬ InLog F a → a ∉ tx.map fst → d a = old a) ∨
  (F.dec (d F.head) = [] ∧ ∀ a, ¬ InLog F a → d a = applyW tx old a)

/-- The phase before the commit point. -/
def Pending (old : A → V) (d : A → V) : Prop :=
  F.dec (d F.head) = [] ∧ ∀ a, ¬ InLog F a → d a = old a

variable {F} {old d : A → V} {tx : List (A × V)}

/-- Home writes do not reach the log. -/
theorem home_write_log {ws : List (A × V)} (hws : ∀ w ∈ ws.map fst, ¬ InLog F w)
    {a : A} (ha : InLog F a) (d : A → V) : applyW ws d a = d a :=
  applyW_of_notMem (fun hmem => hws a hmem ha) d

/-- Writing some of the transaction home keeps the header and the slots. -/
theorem committed_midway (hfit : Fits F tx)
    (hhead : F.dec (d F.head) = tx.map fst) (hslots : logged F d 0 (tx.map fst) = tx)
    (hhome : ∀ a, ¬ InLog F a → a ∉ tx.map fst → d a = old a) (k : Nat) :
    F.dec (applyW (tx.take k) d F.head) = tx.map fst ∧ logged F (applyW (tx.take k) d) 0 (tx.map fst) = tx ∧
      ∀ a, ¬ InLog F a → a ∉ tx.map fst → applyW (tx.take k) d a = old a := by
  have hsub : ∀ a ∈ (tx.take k).map fst, a ∈ tx.map fst := by
    intro a ha
    rw [map_take] at ha
    exact mem_of_mem_take ha
  have hout : ∀ a ∈ (tx.take k).map fst, ¬ InLog F a := fun a ha =>
    hfit.home a (hsub a ha)
  refine ⟨?_, ?_, ?_⟩
  · rw [home_write_log hout inLog_head]; exact hhead
  · refine Eq.trans (logged_congr _ 0 ?_) hslots
    intro j _ hj
    rw [length_map] at hj
    have := hfit.length_le
    exact home_write_log hout (Or.inr ⟨j, by omega, rfl⟩) d
  · intro a ha hmem
    rw [applyW_of_notMem (fun h => hmem (hsub a h))]
    exact hhome a ha hmem

/-- The whole transaction home, over any store that differs from `old` only where the
    transaction writes. -/
theorem applyW_tx_home (hhome : ∀ a, ¬ InLog F a → a ∉ tx.map fst → d a = old a)
    {a : A} (ha : ¬ InLog F a) : applyW tx d a = applyW tx old a :=
  applyW_congr (fun hmem => hhome a ha hmem)

theorem update_head_home {v : V} {a : A} (ha : ¬ InLog F a) (d : A → V) : update d F.head v a = d a :=
  update_of_ne (fun h => ha (Or.inl h)) _ _

/-- A store whose header is cleared. -/
theorem pending_clear {e : A → V} (hhome : ∀ a, ¬ InLog F a → e a = old a) (v : V) :
    Pending F old (update e F.head (F.enc v [])) := by
  refine ⟨?_, fun a ha => ?_⟩
  · rw [update_self, F.dec_enc v [] F.fits_nil]
  · rw [update_head_home ha]
    exact hhome a ha

/-- **Every prefix of a recovery of a pending store leaves it pending.** -/
theorem pending_recover (h : Pending F old d) (v : V) (k : Nat) :
    Pending F old (applyW ((recoverW F d v).take k) d) := by
  have hW : recoverW F d v = [(F.head, F.enc v [])] := by
    show logged F d 0 (F.dec (d F.head)) ++ _ = _
    rw [h.1]; rfl
  rw [hW]
  cases k with
  | zero => exact h
  | succ k =>
    show Pending F old (applyW ((F.head, F.enc v []) :: take k []) d)
    rw [take_nil]
    exact pending_clear h.2 v

/-- **Every prefix of a recovery of a committed store leaves it committed.** -/
theorem committed_recover (hfit : Fits F tx) (h : Committed F old tx d) (v : V) (k : Nat) :
    Committed F old tx (applyW ((recoverW F d v).take k) d) := by
  rcases h with ⟨hhead, hslots, hhome⟩ | ⟨hclear, hhome⟩
  · have hW : recoverW F d v = tx ++ [(F.head, F.enc v [])] := by
      show logged F d 0 (F.dec (d F.head)) ++ _ = _
      rw [hhead, hslots]
    rw [hW]
    by_cases hk : k ≤ tx.length
    · -- cut while the values go home
      rw [take_append_of_le_length hk]
      exact Or.inl (committed_midway hfit hhead hslots hhome k)
    · -- the header has been cleared
      rw [take_of_length_le (by rw [length_append, length_singleton]; omega), applyW_append]
      exact .inr (pending_clear (fun _ ha => applyW_tx_home hhome ha) v)
  · -- nothing is logged: the recovery only clears the header again
    have hp : Pending F (applyW tx old) d := ⟨hclear, hhome⟩
    exact Or.inr (pending_recover hp v k)

/-- What a complete recovery leaves at home: the old contents of a pending store … -/
theorem recover_home_pending (h : Pending F old d) (v : V) {a : A} (ha : ¬ InLog F a) :
    applyW (recoverW F d v) d a = old a := by
  have hp := pending_recover h v (recoverW F d v).length
  rw [take_length] at hp
  exact hp.2 a ha

/-- … and the new contents of a committed one. -/
theorem recover_home_committed (h : Committed F old tx d) (v : V)
    {a : A} (ha : ¬ InLog F a) : applyW (recoverW F d v) d a = applyW tx old a := by
  rcases h with ⟨hhead, hslots, hhome⟩ | ⟨hclear, hhome⟩
  · show applyW (logged F d 0 (F.dec (d F.head)) ++ [(F.head, F.enc v [])]) d a = _
    rw [hhead, hslots, applyW_append]
    exact (pending_clear (fun _ ha => applyW_tx_home hhome ha) v).2 a ha
  · have hp : Pending F (applyW tx old) d := ⟨hclear, hhome⟩
    exact recover_home_pending hp v ha

/-! ## Commit -/

theorem slotW_take {a : A} (ha : ∀ j < F.size, a ≠ F.slot j) {vs : List V} (hvs : vs.length ≤ F.size)
    (k : Nat) (d : A → V) : applyW ((slotW F 0 vs).take k) d a = d a := by
  refine applyW_of_notMem ?_ d
  intro hmem
  rw [map_take] at hmem
  obtain ⟨j, _, h2, h3⟩ := mem_slotW F vs 0 (mem_of_mem_take hmem)
  exact ha j (by omega) h3

section

variable (hfit : Fits F tx) (h : Pending F old d)
include hfit h

/-- **A commit cut before its first header write leaves the store pending.** -/
theorem pending_commit (v v' : V) {k : Nat}
    (hk : k ≤ tx.length) : Pending F old (applyW ((commitW F tx v v').take k) d) := by
  have hlen : (tx.map snd).length ≤ F.size := by
    rw [length_map]; exact hfit.length_le
  have htake : (commitW F tx v v').take k = (slotW F 0 (tx.map snd)).take k :=
    take_append_of_le_length (by rw [length_slotW, length_map]; exact hk)
  rw [htake]
  refine ⟨?_, ?_⟩
  · rw [slotW_take (fun j hj h => F.slot_ne_head j hj h.symm) hlen]; exact h.1
  · intro a ha
    rw [slotW_take (fun j hj h => ha (.inr ⟨j, hj, h⟩)) hlen]
    exact h.2 a ha

/-- The store right after the commit point: the header lists the transaction, the slots
    hold it, and nothing has been written home. -/
theorem commit_point (v : V) {e : A → V} (he : e = update (applyW (slotW F 0 (tx.map snd)) d) F.head
      (F.enc v (tx.map fst))) : F.dec (e F.head) = tx.map fst ∧ logged F e 0 (tx.map fst) = tx ∧
      ∀ a, ¬ InLog F a → a ∉ tx.map fst → e a = old a := by
  have hlen : (tx.map snd).length ≤ F.size := by
    rw [length_map]; exact hfit.length_le
  subst he
  refine ⟨?_, ?_, ?_⟩
  · rw [update_self, F.dec_enc _ _ hfit.fits]
  · refine logged_eq F tx 0 ?_
    intro i w hi
    have hlt : i < tx.length := by
      rcases Nat.lt_or_ge i tx.length with h1 | h1
      · exact h1
      · rw [getElem?_eq_none h1] at hi; cases hi
    have := hfit.length_le
    rw [update_of_ne (F.slot_ne_head _ (by omega))]
    refine applyW_slotW F d (tx.map snd) 0 (by omega) i w.2 ?_
    rw [getElem?_map, hi]
    rfl
  · intro a ha _
    rw [update_head_home ha]
    have h0 := slotW_take (fun j hj h => ha (.inr ⟨j, hj, h⟩)) hlen (slotW F 0 (tx.map snd)).length d
    rw [take_length] at h0
    rw [h0]
    exact h.2 a ha

/-- **A commit cut after its first header write leaves the store committed.** -/
theorem committed_commit (v v' : V) {k : Nat}
    (hk : tx.length < k) : Committed F old tx (applyW ((commitW F tx v v').take k) d) := by
  have hS : (slotW F 0 (tx.map snd)).length = tx.length := by
    rw [length_slotW, length_map]
  obtain ⟨j, rfl⟩ : ∃ j, k = tx.length + (j + 1) := ⟨k - tx.length - 1, by omega⟩
  have htake : (commitW F tx v v').take (tx.length + (j + 1))
      = slotW F 0 (tx.map snd) ++ (F.head, F.enc v (tx.map fst)) ::
          (tx ++ [(F.head, F.enc v' [])]).take j := by
    show (slotW F 0 (tx.map snd) ++ _).take _ = _
    rw [take_append, take_of_length_le (by omega), hS, Nat.add_sub_cancel_left]
    rfl
  obtain ⟨m1, m2, m3⟩ := commit_point hfit h v rfl
  rw [htake, applyW_append, applyW_cons]
  -- from here on the commit writes exactly what a recovery would write
  have hrec : recoverW F (update (applyW (slotW F 0 (tx.map snd)) d) F.head
      (F.enc v (tx.map fst))) v' = tx ++ [(F.head, F.enc v' [])] := by
    show logged F _ 0 (F.dec _) ++ _ = _
    rw [m1, m2]
  rw [← hrec]
  exact committed_recover hfit (Or.inl ⟨m1, m2, m3⟩) v' j

/-- A complete commit is home and leaves the header clear. -/
theorem commit_complete (v v' : V) : Pending F (applyW tx old) (applyW (commitW F tx v v') d) := by
  have hlen : (commitW F tx v v').length = tx.length + 1 + (tx.length + 1) := by
    show (slotW F 0 (tx.map snd) ++ _).length = _
    simp only [length_append, length_cons, length_slotW, length_map, length_nil]
    omega
  have hc := committed_commit (k := (commitW F tx v v').length) hfit h v v' (by omega)
  rw [take_length] at hc
  have hclear : F.dec (applyW (commitW F tx v v') d F.head) = [] := by
    show F.dec (applyW (slotW F 0 (tx.map snd) ++ (F.head, F.enc v (tx.map fst)) ::
      (tx ++ [(F.head, F.enc v' [])])) d F.head) = []
    rw [applyW_append, applyW_cons, applyW_append, applyW_cons, applyW_nil, update_self, F.dec_enc v' [] F.fits_nil]
  rcases hc with ⟨hhead, _, hhome⟩ | hdone
  · -- only an empty transaction is listed by a clear header
    have htx : tx = [] := by
      rw [hclear] at hhead
      exact map_eq_nil_iff.mp hhead.symm
    subst htx
    exact ⟨hclear, fun a ha => hhome a ha (by simp)⟩
  · exact hdone

end

end RedoLog
