import Mathlib.Algebra.Order.BigOperators.Group.Finset
import Xv6.IcacheCodeProofs

/-!
# The inode cache — the invariant and what each step does to it

Four groups of facts, each about its own part of the state:

* **`Table`** — one slot in use per inode, which is what the scan of `iget` relies on;
* **`Users`** — references are counted, and a slot is locked by one process that has a reference;
* **`Content`** — a slot that was read has what the disk has, unless the process that locked it has
  changed it or `iput` is freeing the inode;
* **`Fresh`** — a slot of a free inode is one that `iput` is about to give up, so an inode that
  `ialloc` allocates meets no other user.

The last one is what makes it harmless that `iput` gives up `icache.lock` in the middle: until its
reference is gone another process can find the slot only for an inode that was allocated anew.
-/

set_option linter.unusedSectionVars false

namespace Xv6Icache

open Interleave Xv6Disk Xv6Kernel Function Finset Option

variable {P : Type}

/-- The slots in use are of different inodes, and a scan has seen what it has passed. -/
structure Table (s : St P) : Prop where
  lock : Owner Pc.locked s.pc s.lock
  uniq : ∀ ip jp, 0 < (s.slot ip).ref → 0 < (s.slot jp).ref → (s.slot ip).key = (s.slot jp).key → ip = jp
  scan : ∀ p k f i e, s.pc p = .gScan k f i e →
    (∀ j : I, j.val < i → ¬ (0 < (s.slot j).ref ∧ (s.slot j).key = k)) ∧ ∀ j, e = some j → (s.slot j).ref = 0

/-- References are counted; a slot is locked once, by a process with a reference. -/
structure Users [Fintype P] (s : St P) : Prop where
  total : ∀ ip, (s.slot ip).ref = ∑ p, s.refs p ip
  cur : ∀ p ip, (s.pc p).region.cur = some ip → 0 < s.refs p ip
  busy : ∀ p ip, s.held p ip = true → (s.slot ip).busy = true ∧ 0 < s.refs p ip
  once : ∀ p q ip, s.held p ip = true → s.held q ip = true → p = q
  holding : ∀ p ip, (s.pc p).region.holding = some ip → s.held p ip = true
  putting : ∀ p ip, (s.pc p).region.putting = some ip → s.held p ip = false

/-- What a slot holds, and what `iput` knows of the inode it frees. -/
structure Content (s : St P) : Prop where
  loaded : ∀ p ip, s.held p ip = true → (s.pc p).region.holding ≠ some ip → (s.slot ip).valid = true
  dirty : ∀ ip, s.stale ip = true → ∃ p, s.held p ip = true ∧ (s.pc p).region.holding ≠ some ip
  value : ∀ ip, 0 < (s.slot ip).ref → (s.slot ip).valid = true → (∃ p, (s.pc p).region.freeing = some ip) ∨
      ((s.disk (s.slot ip).key).type ≠ 0 ∧ (s.slot ip).din.type ≠ 0 ∧
        (s.stale ip = false → (s.slot ip).din = s.disk (s.slot ip).key))
  frees : ∀ p ip, (s.pc p).region.frees = some ip → (s.slot ip).ref = 1 ∧
    (s.slot ip).valid = true ∧ (s.slot ip).din.nlink = 0 ∧ (s.disk (s.slot ip).key).type ≠ 0 ∧
      (s.disk (s.slot ip).key).nlink = 0
  typed : ∀ p ip, (s.pc p).region.typed = some ip → (s.slot ip).din.type ≠ 0

/-- An inode that is free, or allocated and not yet referred to, has no users. -/
structure Fresh (s : St P) : Prop where
  fresh : ∀ p k, (s.pc p).region.fresh = some k → (s.disk k).type ≠ 0 ∧ (s.disk k).nlink = 0
  freshOnce : ∀ p q k, (s.pc p).region.fresh = some k → (s.pc q).region.fresh = some k → p = q
  free : ∀ k, (s.disk k).type = 0 ∨ (∃ q, (s.pc q).region.fresh = some k) →
    ∀ ip, (s.slot ip).key = k → 0 < (s.slot ip).ref → (s.slot ip).ref = 1 ∧ ∃ p, (s.pc p).region.gives = some ip
  wants : ∀ p t, (s.pc p).region.wants = some t → t ≠ 0

structure Inv [Fintype P] (s : St P) : Prop where
  table : Table s
  users : Users s
  content : Content s
  fresh : Fresh s

variable [DecidableEq P] {s s' : St P} {p q : P} {ip : I} {c : Pc}

/-- A step that changes one slot keeps what it keeps there. -/
theorem slot_keep {α : Type} {g : Slot → α} {x : Slot} (hx : g x = g (s.slot ip)) (j : I) :
    g (update s.slot ip x j) = g (s.slot j) := by
  by_cases hj : j = ip
  · rw [hj, update_self, hx]
  · rw [update_of_ne hj]

/-- A step that neither uses nor frees a slot, nor scans. -/
theorem Table.keep (h : Table s) (hl : s'.lock = s.lock) (hlocked : c.locked = (s.pc p).locked)
    (href : ∀ j, (s'.slot j).ref = (s.slot j).ref) (hkey : ∀ j, (s'.slot j).key = (s.slot j).key)
    (hpc : s'.pc = update s.pc p c) (hc : ∀ k f i e, c ≠ .gScan k f i e) : Table s' where
  lock := by
    rw [hpc, hl]
    exact owner_same h.lock hlocked
  uniq := by
    intro ip jp
    rw [href, href, hkey, hkey]
    exact h.uniq ip jp
  scan := by
    intro q k f i e hq
    rw [hpc, update_apply] at hq
    split_ifs at hq
    · exact absurd hq (hc k f i e)
    · obtain ⟨hnone, hempty⟩ := h.scan q k f i e hq
      refine ⟨fun j hj => ?_, fun j hj => ?_⟩
      · rw [href, hkey]
        exact hnone j hj
      · rw [href]
        exact hempty j hj

/-- Only the process that has `icache.lock` scans. -/
theorem Table.scans (h : Table s) (hp : (s.pc p).locked = true) {k : Key} {f : Bool} {i : Nat}
    {e : Option I} (hq : s.pc q = .gScan k f i e) : q = p :=
  h.lock.unique (by rw [hq]; rfl) hp

/-- A slot changes at a step of the process that has `icache.lock`. -/
theorem Table.change (h : Table s) (hp : (s.pc p).locked = true) (hl : s'.lock = s.lock) {x : Slot}
    (hslot : s'.slot = update s.slot ip x) (hpc : s'.pc = update s.pc p .rel)
    (hkey : ∀ j, j ≠ ip → 0 < (s.slot j).ref → (s.slot j).key ≠ x.key) : Table s' where
  lock := by
    rw [hpc, hl]
    exact owner_same h.lock hp.symm
  uniq := by
    have huniq := h.uniq
    rw [hslot]
    grind
  scan := by
    intro q k f i e hq
    rw [hpc, update_apply] at hq
    split_ifs at hq with hqp
    exact absurd (h.scans hp hq) hqp

section Counting

variable [Fintype P]

theorem Users.refs_le (h : Users s) (p : P) (ip : I) : s.refs p ip ≤ (s.slot ip).ref := by
  rw [h.total ip]
  exact single_le_sum (f := fun q => s.refs q ip) (fun _ _ => Nat.zero_le _)
    (mem_univ p)

theorem Users.used (h : Users s) (hp : 0 < s.refs p ip) : 0 < (s.slot ip).ref :=
  lt_of_lt_of_le hp (h.refs_le p ip)

theorem Users.sole (h : Users s) (h1 : (s.slot ip).ref = 1) (hp : 0 < s.refs p ip) (hq : 0 < s.refs q ip) : q = p := by
  by_contra hne
  have hle : s.refs q ip + s.refs p ip ≤ ∑ r, s.refs r ip :=
    add_le_sum (f := fun r => s.refs r ip) (fun _ _ => Nat.zero_le _) (mem_univ q)
      (mem_univ p) hne
  rw [← h.total ip] at hle
  omega

/-- What holds of a process at every point it may be at, if it holds after the step of `p`. -/
theorem region_keep {α : Type} {g : Region → Option α} {Q : P → α → Prop}
    (h : ∀ q x, g (s.pc q).region = some x → Q q x)
    (hc : ∀ x, g c.region = some x → g (s.pc p).region = some x) (q : P) (x : α)
    (hq : g (update s.pc p c q).region = some x) : Q q x := by
  by_cases hqp : q = p
  · rw [hqp, update_self] at hq
    exact hqp ▸ h p x (hc x hq)
  · rw [update_of_ne hqp] at hq
    exact h q x hq

/-- A step that takes or drops no reference and no lock. -/
theorem Users.keep (h : Users s) (href : ∀ j, (s'.slot j).ref = (s.slot j).ref)
    (hbusy : ∀ j, (s'.slot j).busy = (s.slot j).busy) (hrefs : s'.refs = s.refs)
    (hheld : s'.held = s.held) (hpc : s'.pc = update s.pc p c)
    (hcur : ∀ jp, c.region.cur = some jp → (s.pc p).region.cur = some jp)
    (hhold : ∀ jp, c.region.holding = some jp → (s.pc p).region.holding = some jp)
    (hput : ∀ jp, c.region.putting = some jp → (s.pc p).region.putting = some jp) : Users s' where
  total := by
    intro ip
    rw [href, hrefs]
    exact h.total ip
  cur := by
    rw [hrefs, hpc]
    exact region_keep (g := Region.cur) h.cur hcur
  busy := by
    intro p ip
    rw [hbusy, hrefs, hheld]
    exact h.busy p ip
  once := by
    rw [hheld]
    exact h.once
  holding := by
    rw [hheld, hpc]
    exact region_keep (g := Region.holding) h.holding hhold
  putting := by
    rw [hheld, hpc]
    exact region_keep (g := Region.putting) h.putting hput

end Counting

theorem update₂_apply {α β γ : Type} [DecidableEq α] [DecidableEq β] (f : α → β → γ) (a : α) (b : β)
    (v : γ) (a' : α) (b' : β) : update f a (update (f a) b v) a' b' = if a' = a ∧ b' = b then v else f a' b' := by
  by_cases ha : a' = a
  · subst ha
    rw [update_self, update_apply]
    simp
  · rw [update_of_ne ha, if_neg (fun hc => ha hc.1)]

variable [Fintype P]

/-- One process has `n` references to a slot now; the sum over all processes follows. -/
theorem sum_refs (s : St P) (p : P) (ip : I) (n : Nat) (jp : I) :
    (∑ q, if q = p ∧ jp = ip then n else s.refs q jp) + (if jp = ip then s.refs p ip else 0) =
      (∑ q, s.refs q jp) + if jp = ip then n else 0 := by
  by_cases hj : jp = ip
  · subst hj
    have hnew := add_sum_erase univ (fun q => if q = p then n else s.refs q jp)
      (mem_univ p)
    have hold := add_sum_erase univ (fun q => s.refs q jp) (mem_univ p)
    have hrest : ∑ q ∈ univ.erase p, (if q = p then n else s.refs q jp) = ∑ q ∈ univ.erase p, s.refs q jp :=
      sum_congr rfl fun q hq => if_neg (ne_of_mem_erase hq)
    simp only [and_true, if_true] at hnew ⊢
    omega
  · simp [hj]

/-- The references are counted as long as a slot's count and a process's number of references
    change together. -/
theorem total_step {r : I → Nat} {n : Nat} (h : ∀ jp, (s.slot jp).ref = ∑ q, s.refs q jp)
    (hip : r ip + s.refs p ip = (s.slot ip).ref + n) (hr : ∀ jp, jp ≠ ip → r jp = (s.slot jp).ref)
    (jp : I) : r jp = ∑ q, if q = p ∧ jp = ip then n else s.refs q jp := by
  have hsum := sum_refs s p ip n jp
  by_cases hj : jp = ip
  · subst hj
    rw [h jp] at hip
    rw [if_pos rfl, if_pos rfl] at hsum
    omega
  · rw [if_neg hj, if_neg hj] at hsum
    rw [hr jp hj, h jp]
    omega

/-! ## moves -/

section

variable (h : Inv s) {e : Option I} {f : Bool}
include h

/-- A move. What the process starts to do it may do, and what it stops doing is done. -/
theorem inv_move {l : Option P} (hl : Owner Pc.locked (update s.pc p c) l)
    (hcur : ∀ jp, c.region.cur = some jp → 0 < s.refs p jp)
    (hhold : ∀ jp, c.region.holding = some jp → s.held p jp = true ∧ s.stale jp = false)
    (hval : ∀ jp, (s.pc p).region.holding = some jp → c.region.holding ≠ some jp → (s.slot jp).valid = true)
    (hput : ∀ jp, c.region.putting = some jp → s.held p jp = false)
    (hfr : c.region.freeing = (s.pc p).region.freeing) (hf : c.region.frees = (s.pc p).region.frees)
    (ht : c.region.typed = (s.pc p).region.typed)
    (hg : ∀ jp, (s.pc p).region.gives = some jp → c.region.gives = some jp)
    (hfresh : c.region.fresh = (s.pc p).region.fresh) (hw : ∀ t, c.region.wants = some t → t ≠ 0)
    (hscan : ∀ k f i e, c = .gScan k f i e → (∀ j : I, j.val < i → ¬ (0 < (s.slot j).ref ∧ (s.slot j).key = k)) ∧
        ∀ j, e = some j → (s.slot j).ref = 0) : Inv { s.to p c with lock := l } where
  table := by
    refine ⟨hl, h.table.uniq, ?_⟩
    have hs := h.table.scan
    simp only [St.to, update_apply]
    grind
  users := by
    obtain ⟨u1, u2, u3, u4, u5, u6⟩ := h.users
    constructor <;> simp only [St.to, update_apply]
    all_goals grind
  content := by
    obtain ⟨c1, c2, c3, c4, c5⟩ := h.content
    constructor <;> simp only [St.to, update_apply]
    all_goals grind
  fresh := by
    obtain ⟨f1, f2, f3, f4⟩ := h.fresh
    constructor <;> simp only [St.to, update_apply]
    all_goals grind

/-- A move to a point where the process does the same thing. -/
theorem inv_same {l : Option P} (hl : Owner Pc.locked (update s.pc p c) l) (hc : c.region = (s.pc p).region)
    (hscan : ∀ k f i e, c = .gScan k f i e → (∀ j : I, j.val < i → ¬ (0 < (s.slot j).ref ∧ (s.slot j).key = k)) ∧
        ∀ j, e = some j → (s.slot j).ref = 0) : Inv { s.to p c with lock := l } := by
  refine inv_move h hl ?_ ?_ ?_ ?_ ?_ ?_ ?_ ?_ ?_ ?_ hscan <;> rw [hc]
  case refine_1 => exact h.users.cur p
  case refine_2 =>
    intro jp hjp
    have hh := h.users.holding p jp hjp
    refine ⟨hh, Bool.eq_false_iff.mpr fun hst => ?_⟩
    obtain ⟨q, hq, hne⟩ := h.content.dirty jp hst
    rw [h.users.once q p jp hq hh] at hne
    exact hne hjp
  case refine_3 => exact fun jp hjp hne => absurd hjp hne
  case refine_4 => exact h.users.putting p
  case refine_8 => exact fun _ hg => hg
  case refine_10 => exact h.fresh.wants p

/-- `ilock` finds the inode read already. -/
theorem inv_loaded (hpc : s.pc p = .lRead ip) (hv : (s.slot ip).valid = true) : Inv (s.to p .out) := by
  refine inv_move h (owner_same h.table.lock (by rw [hpc]; rfl)) nofun nofun ?_ nofun ?_ ?_ ?_ ?_ ?_
    nofun nofun <;> rw [hpc]
  case refine_1 => exact fun jp hjp _ => some.inj hjp ▸ hv
  case refine_5 => exact nofun
  all_goals rfl

/-- `iput` has nothing to free. -/
theorem inv_decide (hpc : s.pc p = .pTest ip) : Inv (s.to p (.pDec ip)) := by
  have hcur := h.users.cur p ip (by rw [hpc]; rfl)
  have hput := h.users.putting p ip (by rw [hpc]; rfl)
  refine inv_move h (owner_same h.table.lock (by rw [hpc]; rfl)) ?_ nofun ?_ ?_ ?_ ?_ ?_ ?_ ?_
    nofun nofun
  · exact fun jp hjp => some.inj hjp ▸ hcur
  · rw [hpc]
    exact nofun
  · exact fun jp hjp => some.inj hjp ▸ hput
  · rw [hpc]
    rfl
  · rw [hpc]
    rfl
  · rw [hpc]
    rfl
  · rw [hpc]
    exact nofun
  · rw [hpc]
    rfl

/-- The start of a call -/
theorem inv_enter (hpc : s.pc p = .out) (hlock : c.locked = false)
    (hcur : ∀ jp, c.region.cur = some jp → 0 < s.refs p jp)
    (hhold : ∀ jp, c.region.holding = some jp → s.held p jp = true ∧ s.stale jp = false)
    (hput : ∀ jp, c.region.putting = some jp → s.held p jp = false)
    (hfr : c.region.freeing = none) (hfresh : c.region.fresh = none)
    (hw : ∀ t, c.region.wants = some t → t ≠ 0) : Inv (s.to p c) := by
  have hf : c.region.frees = none := by
    cases hc : c.region.frees with
    | none => rfl
    | some ip => cases (freeing_of_frees hc).symm.trans hfr
  have ht : c.region.typed = none := by
    cases hc : c.region.typed with
    | none => rfl
    | some ip => cases (frees_of_typed hc).symm.trans hf
  refine inv_move h (owner_same h.table.lock ?_) hcur hhold ?_ hput ?_ ?_ ?_ ?_ ?_ hw ?_
  · rw [hpc, hlock]
    rfl
  · exact fun jp hjp => nomatch (by rw [hpc] at hjp; exact hjp : (none : Option I) = some jp)
  · rw [hpc, hfr]
    rfl
  · rw [hpc, hf]
    rfl
  · rw [hpc, ht]
    rfl
  · exact fun jp hjp => nomatch (by rw [hpc] at hjp; exact hjp : (none : Option I) = some jp)
  · rw [hpc, hfresh]
    rfl
  · intro k f i e hc
    rw [hc] at hlock
    cases hlock

/-! ## references taken and given up -/

/-- The number that `iget` looks for is that of an inode that is not free, and nobody else has
    just allocated it. -/
theorem Inv.usable {k : Key} {i : Nat} (hpc : s.pc p = .gScan k f i e) (hn : f = true ∨ Named s p k) :
    (s.disk k).type ≠ 0 ∧ ∀ q, (s.pc q).region.fresh = some k → q = p := by
  rcases hn with rfl | ⟨ht, hl⟩ | ⟨jp, hk, hr⟩
  · have hf : (s.pc p).region.fresh = some k := by rw [hpc]; rfl
    exact ⟨(h.fresh.fresh p k hf).1, fun q hq => h.fresh.freshOnce q p k hq hf⟩
  · exact ⟨ht, fun q hq => absurd (h.fresh.fresh q k hq).2 hl⟩
  · -- a reference of one's own: were the inode free, its only user would be in `iput`
    have hno : ¬ ((s.disk k).type = 0 ∨ ∃ q, (s.pc q).region.fresh = some k) := by
      intro hc
      obtain ⟨h1, q, hq⟩ := h.fresh.free k hc jp hk (h.users.used hr)
      rw [h.users.sole h1 hr (h.users.cur q jp (cur_of_gives hq)), hpc] at hq
      cases hq
    exact ⟨fun hc => hno (Or.inl hc), fun q hq => absurd (Or.inr ⟨q, hq⟩) hno⟩

/-- Once the process has its reference the inode is neither free nor waiting for a first one. -/
theorem Inv.settled {k : Key} {i : Nat}
    (hpc : s.pc p = .gScan k f i e) (hn : f = true ∨ Named s p k) : ¬ ((s.disk k).type = 0 ∨
      ∃ q, (if q = p then Pc.rel else s.pc q).region.fresh = some k) := by
  obtain ⟨ht, honly⟩ := h.usable hpc hn
  rintro (h0 | ⟨q, hq⟩)
  · exact ht h0
  · split at hq
    case isTrue => cases hq
    case isFalse hne => exact hne (honly q hq)

/-- Nobody is freeing that inode. -/
theorem Inv.unfreed {k : Key} {i : Nat}
    (hpc : s.pc p = .gScan k f i e) (hn : f = true ∨ Named s p k) (hk : (s.slot ip).key = k)
    (q : P) : (s.pc q).region.frees ≠ some ip := by
  intro hq
  obtain ⟨h1, -, -, -, hl⟩ := h.content.frees q ip hq
  have hqr : 0 < s.refs q ip :=
    h.users.cur q ip (cur_of_holding (holding_of_freeing (freeing_of_frees hq)))
  rcases hn with rfl | ⟨-, hl'⟩ | ⟨jp, hk', hr⟩
  · have hf : (s.pc p).region.fresh = some k := by rw [hpc]; rfl
    obtain ⟨-, r, hr⟩ := h.fresh.free k (Or.inr ⟨p, hf⟩) ip hk (by omega)
    rw [h.users.sole h1 hqr (h.users.cur r ip (cur_of_gives hr)), gives_of_frees hq] at hr
    cases hr
  · rw [hk] at hl
    exact hl' hl
  · obtain rfl := h.table.uniq ip jp (by omega) (h.users.used hr) (hk.trans hk'.symm)
    rw [h.users.sole h1 hr hqr, hpc] at hq
    cases hq

/-- One more reference to a slot in use, of an inode that is neither free nor being freed. -/
theorem inv_more {c : Option I} {k : Option Key} (hpc : (s.pc p).region = { cur := c, fresh := k })
    (hl : (s.pc p).locked = true) (hr : 0 < (s.slot ip).ref) (hno : ∀ q, (s.pc q).region.frees ≠ some ip)
    (hused : ¬ ((s.disk (s.slot ip).key).type = 0 ∨
      ∃ q, (if q = p then Pc.rel else s.pc q).region.fresh = some (s.slot ip).key)) :
    Inv (((s.setSlot ip { s.slot ip with ref := (s.slot ip).ref + 1 }).count p ip
      (s.refs p ip + 1)).to p .rel) := by
  refine ⟨?table, ?users, ?content, ?fresh⟩
  case table =>
    exact h.table.change hl rfl rfl rfl fun j hj hjr hk => hj (h.table.uniq j ip hjr hr hk)
  case users =>
    obtain ⟨u1, u2, u3, u4, u5, u6⟩ := h.users
    constructor <;> simp only [St.setSlot, St.count, St.to, update₂_apply, update_apply]
    case total => exact total_step u1 (by simp; omega) (fun jp hj => by simp [hj])
    all_goals grind [Pc.region]
  case content =>
    obtain ⟨c1, c2, c3, c4, c5⟩ := h.content
    constructor <;> simp only [St.setSlot, St.count, St.to, update_apply]
    all_goals grind [Pc.region]
  case fresh =>
    obtain ⟨f1, f2, f3, f4⟩ := h.fresh
    constructor <;> simp only [St.setSlot, St.count, St.to, update_apply]
    case free =>
      intro k' hk' jp hjp hpos
      by_cases hj : jp = ip
      · have hkk : k' = (s.slot ip).key := by grind
        exact absurd (hkk ▸ hk') hused
      · grind [Pc.region]
    all_goals grind [Pc.region]

/-- `iget` has found the slot. -/
theorem inv_found {k : Key} {i : Nat}
    (hpc : s.pc p = .gScan k f i e) (hn : f = true ∨ Named s p k) (hr : 0 < (s.slot ip).ref)
    (hk : (s.slot ip).key = k) : Inv (((s.setSlot ip { s.slot ip with ref := (s.slot ip).ref + 1 }).count p ip
      (s.refs p ip + 1)).to p .rel) :=
  inv_more h (by rw [hpc]; rfl) (by rw [hpc]; rfl) hr (h.unfreed hpc hn hk) (hk ▸ h.settled hpc hn)

/-- `iget` recycles an unused slot. -/
theorem inv_recycle {k : Key} {i : Nat}
    (hpc : s.pc p = .gScan k f i (some ip)) (hn : f = true ∨ Named s p k) (hi : NINODE ≤ i) :
    Inv (((s.setSlot ip { s.slot ip with key := k, ref := 1, busy := false, valid := false }).count
      p ip (s.refs p ip + 1)).to p .rel) := by
  have hu := h.usable hpc hn
  obtain ⟨hnone, hzero⟩ := h.table.scan p k f i _ hpc
  have h0 := hzero ip rfl
  have hrefs : ∀ q, s.refs q ip = 0 := fun q => Nat.le_zero.mp (h0 ▸ h.users.refs_le q ip)
  have hnew : ∀ j, 0 < (s.slot j).ref → (s.slot j).key ≠ k :=
    fun j hj hk => hnone j (lt_of_lt_of_le j.isLt hi) ⟨hj, hk⟩
  clear hnone hzero
  refine ⟨?table, ?users, ?content, ?fresh⟩
  case table => exact h.table.change (by rw [hpc]; rfl) rfl rfl rfl fun j _ hj => hnew j hj
  case users =>
    obtain ⟨u1, u2, u3, u4, u5, u6⟩ := h.users
    constructor <;> simp only [St.setSlot, St.count, St.to, update₂_apply, update_apply]
    case total => exact total_step u1 (by simp; omega) (fun jp hj => by simp [hj])
    all_goals grind [Pc.region]
  case content =>
    obtain ⟨c1, c2, c3, c4, c5⟩ := h.content
    obtain ⟨-, u2, u3, u4, u5, -⟩ := h.users
    constructor <;> simp only [St.setSlot, St.count, St.to, update_apply]
    all_goals grind [Pc.region]
  case fresh =>
    obtain ⟨f1, f2, f3, f4⟩ := h.fresh
    have hused := h.settled hpc hn
    constructor <;> simp only [St.setSlot, St.count, St.to, update_apply]
    case free =>
      intro k' hk' jp hjp hpos
      by_cases hj : jp = ip
      · have hkk : k' = k := by grind
        exact absurd (hkk ▸ hk') hused
      · grind [Pc.region]
    all_goals grind [Pc.region]

/-- `idup` -/
theorem inv_dup (hpc : s.pc p = .dInc ip) :
    Inv (((s.setSlot ip { s.slot ip with ref := (s.slot ip).ref + 1 }).count p ip
      (s.refs p ip + 1)).to p .rel) := by
  have hp : 0 < s.refs p ip := h.users.cur p ip (by rw [hpc]; rfl)
  -- who frees or gives up the only reference is `p`
  have hsole : ∀ q, (s.slot ip).ref = 1 → (s.pc q).region.cur = some ip → q = p :=
    fun q h1 hq => h.users.sole h1 hp (h.users.cur q ip hq)
  refine inv_more h (by rw [hpc]; rfl) (by rw [hpc]; rfl) (h.users.used hp) (fun q hq => ?_) ?_
  · have h1 := (h.content.frees q ip hq).1
    rw [hsole q h1 (cur_of_holding (holding_of_freeing (freeing_of_frees hq))), hpc] at hq
    cases hq
  · intro hfree
    obtain ⟨h1, q, hq⟩ := h.fresh.free _ (hfree.imp_right fun ⟨q, hq⟩ => ⟨q, by
      split at hq <;> [exact nomatch hq; exact hq]⟩)
      ip rfl (h.users.used hp)
    rw [hsole q h1 (cur_of_gives hq), hpc] at hq
    cases hq

/-- The end of `iput` -/
theorem inv_drop (hpc : s.pc p = .pDec ip) :
    Inv (((s.setSlot ip { s.slot ip with ref := (s.slot ip).ref - 1 }).count p ip
      (s.refs p ip - 1)).to p .rel) := by
  have hp : 0 < s.refs p ip := h.users.cur p ip (by rw [hpc]; rfl)
  have hle := h.users.refs_le p ip
  have hsole : ∀ q, (s.slot ip).ref = 1 → (s.pc q).region.cur = some ip → q = p :=
    fun q h1 hq => h.users.sole h1 hp (h.users.cur q ip hq)
  have hun : s.held p ip = false := h.users.putting p ip (by rw [hpc]; rfl)
  refine ⟨?table, ?users, ?content, ?fresh⟩
  case table =>
    exact h.table.change (by rw [hpc]; rfl) rfl rfl rfl fun j hj hjr hk => hj (h.table.uniq j ip hjr (h.users.used hp) hk)
  case users =>
    obtain ⟨u1, u2, u3, u4, u5, u6⟩ := h.users
    constructor <;> simp only [St.setSlot, St.count, St.to, update₂_apply, update_apply]
    case total => exact total_step u1 (by simp; omega) (fun jp hj => by simp [hj])
    all_goals grind [Pc.region]
  case content =>
    obtain ⟨c1, c2, c3, c4, c5⟩ := h.content
    constructor <;> simp only [St.setSlot, St.count, St.to, update_apply]
    all_goals grind [Pc.region]
  case fresh =>
    obtain ⟨f1, f2, f3, f4⟩ := h.fresh
    constructor <;> simp only [St.setSlot, St.count, St.to, update_apply]
    all_goals grind [Pc.region]

/-- A reference passes to another process. -/
theorem inv_give (hpc : s.pc p = .out) (hp : 0 < s.refs p ip) (hun : s.held p ip = false) (hq : q ≠ p) :
    Inv ((s.count p ip (s.refs p ip - 1)).count q ip (s.refs q ip + 1)) := by
  refine ⟨⟨h.table.lock, h.table.uniq, h.table.scan⟩, ?users, ?content, ?fresh⟩
  case users =>
    obtain ⟨u1, u2, u3, u4, u5, u6⟩ := h.users
    refine ⟨?total, ?cur, ?busy, u4, u5, u6⟩ <;> simp only [St.count, update₂_apply]
    case total =>
      intro jp
      have hless := sum_refs s p ip (s.refs p ip - 1) jp
      have hmore := sum_refs (s.count p ip (s.refs p ip - 1)) q ip (s.refs q ip + 1) jp
      simp only [St.count, update₂_apply, hq, false_and, if_false] at hmore
      rw [u1 jp]
      split_ifs at hless hmore <;> omega
    all_goals grind [Pc.region]
  case content => exact ⟨h.content.loaded, h.content.dirty, h.content.value, h.content.frees, h.content.typed⟩
  case fresh => exact ⟨h.fresh.fresh, h.fresh.freshOnce, h.fresh.free, h.fresh.wants⟩

/-! ## locks -/

/-- **What is read and not locked is what the disk has.** -/
theorem Inv.unlocked (hfree : ∀ q, s.held q ip = false) (hr : 0 < (s.slot ip).ref) (hv : (s.slot ip).valid = true) :
    (s.disk (s.slot ip).key).type ≠ 0 ∧ (s.slot ip).din = s.disk (s.slot ip).key := by
  rcases h.content.value ip hr hv with ⟨p, hp⟩ | ⟨ht, -, heq⟩
  · have hh := h.users.holding p ip (holding_of_freeing hp)
    rw [hfree p] at hh
    cases hh
  · refine ⟨ht, heq (Bool.eq_false_iff.mpr fun hst => ?_)⟩
    obtain ⟨p, hh, -⟩ := h.content.dirty ip hst
    rw [hfree p] at hh
    cases hh

end

/-- The steps that lock or unlock a slot, with what they leave in it and where they go: `ilock` gets the slot, `iput`
    takes it to free the inode, `iunlock`, and `iput` when it forgets what it freed. -/
inductive Locking (s : St P) (p : P) (ip : I) : Slot → Bool → Pc → Prop where
  | lock : s.pc p = .lTest ip → (s.slot ip).busy = false →
    Locking s p ip { s.slot ip with busy := true } true (.lRel ip)
  | take : s.pc p = .pTest ip → (s.slot ip).busy = false → (s.slot ip).ref = 1 → (s.slot ip).valid = true →
    (s.slot ip).din.nlink = 0 → Locking s p ip { s.slot ip with busy := true } true (.pRel ip)
  | unlock : s.pc p = .uClear ip → Locking s p ip { s.slot ip with busy := false } false .rel
  | clear : s.pc p = .pClear ip →
    Locking s p ip { s.slot ip with busy := false, valid := false } false (.pDec ip)

section Locking

variable {x : Slot} {b : Bool}

theorem users_locking (h : Users s) (hs : Locking s p ip x b c) : Users (((s.setSlot ip x).hold p ip b).to p c) := by
  obtain ⟨u1, u2, u3, u4, u5, u6⟩ := h
  cases hs <;> constructor <;> simp only [St.setSlot, St.hold, St.to, update₂_apply, update_apply]
  all_goals grind [Pc.region]

theorem content_locking (h : Inv s) (hs : Locking s p ip x b c) : Content (((s.setSlot ip x).hold p ip b).to p c) := by
  have hval : (s.slot ip).busy = false → (s.slot ip).ref = 1 → (s.slot ip).valid = true →
      (s.disk (s.slot ip).key).type ≠ 0 ∧ (s.slot ip).din = s.disk (s.slot ip).key := by
    intro hb hr
    refine h.unlocked (fun q => Bool.eq_false_iff.mpr fun hh => ?_) (by omega)
    cases hb.symm.trans (h.users.busy q ip hh).1
  obtain ⟨c1, c2, c3, c4, c5⟩ := h.content
  obtain ⟨-, u2, u3, u4, u5, u6⟩ := h.users
  cases hs <;> constructor <;> simp only [St.setSlot, St.hold, St.to, update₂_apply, update_apply]
  all_goals grind [Pc.region]

theorem fresh_locking (h : Fresh s) (hs : Locking s p ip x b c) : Fresh (((s.setSlot ip x).hold p ip b).to p c) := by
  obtain ⟨f1, f2, f3, f4⟩ := h
  cases hs <;> constructor <;> simp only [St.setSlot, St.hold, St.to, update_apply]
  all_goals grind [Pc.region]

theorem inv_locking (h : Inv s) (hs : Locking s p ip x b c) : Inv (((s.setSlot ip x).hold p ip b).to p c) := by
  have hlocked : c.locked = (s.pc p).locked := by cases hs <;> simp only [*] <;> rfl
  refine ⟨?_, users_locking h.users hs, content_locking h hs, fresh_locking h.fresh hs⟩
  cases hs <;> exact h.table.keep rfl hlocked (slot_keep (g := Slot.ref) rfl) (slot_keep (g := Slot.key) rfl)
    rfl nofun

end Locking

/-! ## contents -/

/-- The steps that change what a slot has: `ilock` reads the inode, `iput` truncates it and clears its type. -/
inductive Editing (s : St P) (p : P) (ip : I) : Slot → Pc → Prop where
  | read : s.pc p = .lRead ip → (s.disk (s.slot ip).key).type ≠ 0 →
    Editing s p ip { s.slot ip with valid := true, din := s.disk (s.slot ip).key } .out
  | trunc : s.pc p = .pTrunc ip →
    Editing s p ip { s.slot ip with din := trunc (s.slot ip).din } (.pTruncUpdate ip)
  | type : s.pc p = .pType ip →
    Editing s p ip { s.slot ip with din := { (s.slot ip).din with type := 0 } } (.pUpdate ip)

theorem inv_editing (h : Inv s) {x : Slot} (he : Editing s p ip x c) : Inv ((s.setSlot ip x).to p c) := by
  refine ⟨?table, ?users, ?content, ?fresh⟩
  case table =>
    have hlocked : c.locked = (s.pc p).locked := by cases he <;> simp only [*] <;> rfl
    cases he <;> exact h.table.keep rfl hlocked (slot_keep (g := Slot.ref) rfl) (slot_keep (g := Slot.key) rfl)
      rfl nofun
  case users =>
    cases he with
    | read =>
      exact h.users.keep (slot_keep (g := Slot.ref) rfl) (slot_keep (g := Slot.busy) rfl) rfl rfl rfl
        nofun nofun nofun
    | trunc hpc | type hpc =>
      exact h.users.keep (slot_keep (g := Slot.ref) rfl) (slot_keep (g := Slot.busy) rfl) rfl rfl rfl
        (by rw [hpc]; exact fun _ h => h) (by rw [hpc]; exact fun _ h => h) nofun
  case content =>
    obtain ⟨c1, c2, c3, c4, c5⟩ := h.content
    have hhold := h.users.holding
    have honce := h.users.once
    cases he <;> constructor <;> simp only [St.setSlot, St.to, update_apply]
    all_goals grind [Pc.region, trunc]
  case fresh =>
    obtain ⟨f1, f2, f3, f4⟩ := h.fresh
    cases he <;> constructor <;> simp only [St.setSlot, St.to, update_apply]
    all_goals grind [Pc.region, trunc]

/-- A process changes an inode it has locked. -/
theorem inv_modify (h : Inv s) {d : Dinode} (hpc : s.pc p = .out) (hh : s.held p ip = true)
    (ht : d.type = (s.slot ip).din.type) : Inv { s.setSlot ip { s.slot ip with din := d } with
      stale := update s.stale ip true } := by
  have hpc' : s.pc = update s.pc p .out := by rw [← hpc, update_eq_self]
  refine ⟨?table, ?users, ?content, ?fresh⟩
  case table =>
    exact h.table.keep rfl (by rw [hpc]) (slot_keep (g := Slot.ref) rfl)
      (slot_keep (g := Slot.key) rfl) hpc' nofun
  case users =>
    exact h.users.keep (slot_keep (g := Slot.ref) rfl) (slot_keep (g := Slot.busy) rfl) rfl rfl hpc'
      nofun nofun nofun
  case content =>
    obtain ⟨c1, c2, c3, c4, c5⟩ := h.content
    have hhold := h.users.holding
    have honce := h.users.once
    constructor <;> simp only [St.setSlot, update_apply]
    all_goals grind [Pc.region]
  case fresh =>
    obtain ⟨f1, f2, f3, f4⟩ := h.fresh
    constructor <;> simp only [St.setSlot, update_apply]
    all_goals grind [Pc.region]

/-- `iupdate` after a change -/
theorem inv_update (h : Inv s) (hpc : s.pc p = .out) (hh : s.held p ip = true) :
    Inv { s.update ip with stale := update s.stale ip false } := by
  have hpc' : s.pc = update s.pc p .out := by rw [← hpc, update_eq_self]
  obtain ⟨hb, hr⟩ := h.users.busy p ip hh
  have hpos := h.users.used hr
  have huniq := h.table.uniq ip
  have hsole : ∀ q, (s.slot ip).ref = 1 → (s.pc q).region.cur = some ip → q = p :=
    fun q h1 hq => h.users.sole h1 hr (h.users.cur q ip hq)
  have hhold := h.users.holding
  have honce := h.users.once
  refine ⟨?table, ?users, ?content, ?fresh⟩
  case table => exact h.table.keep rfl (by rw [hpc]) (fun _ => rfl) (fun _ => rfl) hpc' nofun
  case users => exact h.users.keep (fun _ => rfl) (fun _ => rfl) rfl rfl hpc' nofun nofun nofun
  case content =>
    obtain ⟨c1, c2, c3, c4, c5⟩ := h.content
    constructor <;> simp only [St.update, update_apply]
    all_goals grind [Pc.region]
  case fresh =>
    obtain ⟨c1, -, c3, -, -⟩ := h.content
    obtain ⟨f1, f2, f3, f4⟩ := h.fresh
    constructor <;> simp only [St.update, update_apply]
    all_goals grind [Pc.region]

/-- `iput` copies the inode to the disk: what is truncated, and then what is free. -/
theorem inv_put (h : Inv s) (hc : s.pc p = .pTruncUpdate ip ∧ c = .pType ip ∨ s.pc p = .pUpdate ip ∧ c = .pReacq ip) :
    Inv ((s.update ip).to p c) := by
  have hcur : (s.pc p).region.cur = some ip := by rcases hc with ⟨hpc, -⟩ | ⟨hpc, -⟩ <;> rw [hpc] <;> rfl
  have hr : 0 < s.refs p ip := h.users.cur p ip hcur
  have hpos := h.users.used hr
  have huniq := h.table.uniq ip
  have hsole : ∀ q, (s.slot ip).ref = 1 → (s.pc q).region.cur = some ip → q = p :=
    fun q h1 hq => h.users.sole h1 hr (h.users.cur q ip hq)
  refine ⟨?table, ?users, ?content, ?fresh⟩
  case table =>
    rcases hc with ⟨hpc, rfl⟩ | ⟨hpc, rfl⟩ <;>
      exact h.table.keep rfl (by rw [hpc]; rfl) (fun _ => rfl) (fun _ => rfl) rfl nofun
  case users =>
    rcases hc with ⟨hpc, rfl⟩ | ⟨hpc, rfl⟩ <;>
      exact h.users.keep (fun _ => rfl) (fun _ => rfl) rfl rfl rfl (by rw [hpc]; exact fun _ h => h)
        (by rw [hpc]; exact fun _ h => h) nofun
  case content =>
    obtain ⟨c1, c2, c3, c4, c5⟩ := h.content
    rcases hc with ⟨hpc, rfl⟩ | ⟨hpc, rfl⟩ <;> constructor <;>
      simp only [St.update, St.to, update_apply]
    all_goals grind [Pc.region]
  case fresh =>
    obtain ⟨f1, f2, f3, f4⟩ := h.fresh
    obtain ⟨-, -, -, c4, c5⟩ := h.content
    rcases hc with ⟨hpc, rfl⟩ | ⟨hpc, rfl⟩ <;> constructor <;>
      simp only [St.update, St.to, update_apply]
    all_goals grind [Pc.region]

/-- `ialloc` has found a free inode. -/
theorem inv_alloc (h : Inv s) {dev inum : Nat} {type : Int16} {m : UInt32}
    (hpc : s.pc p = .aScan dev type inum) (hfree : (s.disk (dev, inum)).type = 0) :
    Inv ((s.alloc (dev, inum) type m).to p (.gAcq (dev, inum) true)) := by
  have ht : type ≠ 0 := h.fresh.wants p type (by rw [hpc]; rfl)
  have hz : Dinode.zero.nlink = 0 := rfl
  refine ⟨?table, ?users, ?content, ?fresh⟩
  case table =>
    exact h.table.keep (c := .gAcq (dev, inum) true) rfl (by rw [hpc]; rfl) (fun _ => rfl) (fun _ => rfl) rfl nofun
  case users =>
    exact h.users.keep (c := .gAcq (dev, inum) true) (fun _ => rfl) (fun _ => rfl) rfl
      rfl rfl nofun nofun nofun
  case content =>
    obtain ⟨c1, c2, c3, c4, c5⟩ := h.content
    constructor <;> simp only [St.alloc, St.to, update_apply]
    all_goals grind [Pc.region]
  case fresh =>
    obtain ⟨f1, f2, f3, f4⟩ := h.fresh
    constructor <;> simp only [St.alloc, St.to, update_apply]
    all_goals grind [Pc.region]

end Xv6Icache
