import Xv6.IcacheStepsProofs

/-!
# Coherence of the inode cache

Every step of a process whose `iget` has a `known` number keeps the invariant, so it holds in every
state of every interleaving of such steps. What the cache promises follows from it, and so does what a
step may do: give a slot to another inode only when nobody uses it, and free an inode on the disk only
in the `iput` of its last reference. An inode may be allocated again before that `iput` has finished, and
its new user gets the same slot. With the number of a stale `..` a process gets a reference to an inode
whose last `iput` is under way; two runs at the end of this file do the one and the other.
-/

set_option linter.unusedSectionVars false

namespace Xv6Icache

open Interleave Xv6Disk Xv6Kernel Function Option

variable {P : Type} [Fintype P] [DecidableEq P] {s s' : St P} {p : P} {ip : I} {a : Act P}

/-- Taking `icache.lock` -/
theorem inv_acquire (h : Inv s) {c : Pc} (hs : acquire s p c = some s') (hc : c.locked = true)
    (hr : c.region = (s.pc p).region) (hscan : ∀ k f i e, c = .gScan k f i e → i = 0 ∧ e = none) : Inv s' := by
  unfold acquire at hs
  split_ifs at hs with hl
  rw [← some.inj hs]
  refine inv_same h (owner_acquire (hl ▸ h.table.lock) hc) hr ?_
  intro k f i e hceq
  obtain ⟨rfl, rfl⟩ := hscan k f i e hceq
  exact ⟨fun j hj => absurd hj (Nat.not_lt_zero _), fun j hj => nomatch hj⟩

/-- Giving it up -/
theorem inv_release (h : Inv s) {c : Pc} (hs : release s p c = some s')
    (hp : (s.pc p).locked = true) (hc : c.locked = false) (hr : c.region = (s.pc p).region) : Inv s' := by
  rw [← some.inj hs]
  refine inv_same h (owner_release h.table.lock hp hc) hr ?_
  intro k f i e hceq
  rw [hceq] at hc
  cases hc

/-- One round of the scan in `iget`. -/
theorem inv_scan (h : Inv s) {k : Key} {f : Bool} {i : Nat} {e e' : Option I}
    (hpc : s.pc p = .gScan k f i e) (hi : i < NINODE) (hmiss : ¬ (0 < (s.slot ⟨i, hi⟩).ref ∧ (s.slot ⟨i, hi⟩).key = k))
    (he : e' = e ∨ e' = some ⟨i, hi⟩ ∧ (s.slot ⟨i, hi⟩).ref = 0) : Inv (s.to p (.gScan k f (i + 1) e')) := by
  obtain ⟨hnone, hempty⟩ := h.table.scan p k f i e hpc
  refine inv_same h (owner_same h.table.lock (by rw [hpc]; rfl)) (by rw [hpc]; rfl) ?_
  intro k' f' i' e'' hc
  obtain ⟨rfl, rfl, rfl, rfl⟩ := Pc.gScan.inj hc
  constructor
  · intro j hj
    rcases Nat.lt_succ_iff_lt_or_eq.mp hj with hlt | heq
    · exact hnone j hlt
    · have hji : j = ⟨i, hi⟩ := Fin.ext heq
      rwa [hji]
  · intro j hj
    rcases he with rfl | ⟨rfl, h0⟩
    · exact hempty j hj
    · rw [← some.inj hj]
      exact h0

/-- **A step of a process whose number is known** keeps the invariant. -/
theorem step_inv (h : Inv s) (hk : known p s = true) (hs : step p a s = some s') : Inv s' := by
  unfold step at hs
  split at hs
  case h_1 k hpc =>
    cases hs
    exact inv_enter h hpc rfl nofun nofun nofun rfl rfl nofun
  case h_2 dev type hpc =>
    split_ifs at hs with ht
    cases hs
    refine inv_enter h hpc rfl nofun nofun nofun rfl rfl ?_
    exact fun t he => (some.inj he) ▸ ht
  case h_3 ip hpc =>
    split_ifs at hs with hr
    cases hs
    exact inv_enter h hpc rfl (fun jp he => (some.inj he) ▸ hr) nofun nofun rfl rfl nofun
  case h_4 ip hpc =>
    split_ifs at hs with hr
    cases hs
    exact inv_enter h hpc rfl (fun jp he => (some.inj he) ▸ hr.1) nofun nofun rfl rfl nofun
  case h_5 ip hpc =>
    split_ifs at hs with hr
    cases hs
    exact inv_enter h hpc rfl (fun jp he => (some.inj he) ▸ (h.users.busy p ip hr.1).2)
      (fun jp he => (some.inj he) ▸ ⟨hr.1, hr.2.1⟩) nofun rfl rfl nofun
  case h_6 ip hpc =>
    split_ifs at hs with hr
    cases hs
    exact inv_enter h hpc rfl (fun jp he => (some.inj he) ▸ hr.1) nofun
      (fun jp he => (some.inj he) ▸ hr.2) rfl rfl nofun
  case h_7 ip d hpc =>
    split_ifs at hs with hr
    cases hs
    exact inv_modify h hpc hr.1 hr.2
  case h_8 ip hpc =>
    split_ifs at hs with hr
    cases hs
    exact inv_update h hpc hr
  case h_9 q ip hpc =>
    split_ifs at hs with hr
    cases hs
    exact inv_give h hpc hr.1 hr.2.1 hr.2.2
  case h_10 dev type inum m hpc =>
    split at hs
    case isFalse => cases hs
    case isTrue hi =>
      split at hs
      case isTrue hfree =>
        cases hs
        exact inv_alloc h hpc hfree
      case isFalse =>
        cases hs
        exact inv_same h (owner_same h.table.lock (by rw [hpc]; rfl)) (by rw [hpc]; rfl) nofun
  case h_11 k f hpc =>
    refine inv_acquire h hs rfl (by rw [hpc]; rfl) ?_
    intro k' f' i e hc
    obtain ⟨-, -, rfl, rfl⟩ := Pc.gScan.inj hc
    exact ⟨rfl, rfl⟩
  case h_12 k f i e hpc =>
    have hn : f = true ∨ Named s p k := by
      rw [known, hpc] at hk
      simpa using hk
    split at hs
    case isTrue hi =>
      split at hs
      case isTrue hhit =>
        cases hs
        exact inv_found h hpc hn hhit.1 hhit.2
      case isFalse hmiss =>
        split at hs
        case isTrue he =>
          cases hs
          exact inv_scan h hpc hi hmiss (Or.inr ⟨rfl, he.2⟩)
        case isFalse =>
          cases hs
          exact inv_scan h hpc hi hmiss (Or.inl rfl)
    case isFalse hi =>
      split at hs
      case h_1 => cases hs
      case h_2 ip =>
        cases hs
        exact inv_recycle h hpc hn (Nat.le_of_not_lt hi)
  case h_13 ip hpc | h_15 ip hpc | h_19 ip hpc | h_21 ip hpc | h_28 ip hpc =>
    exact inv_acquire h hs rfl (by rw [hpc]; rfl) nofun
  case h_14 ip hpc =>
    cases hs
    exact inv_dup h hpc
  case h_16 ip hpc =>
    split at hs
    case isTrue => exact inv_release h hs (by rw [hpc]; rfl) rfl (by rw [hpc]; rfl)
    case isFalse hb =>
      cases hs
      exact inv_locking h (.lock hpc (Bool.eq_false_iff.mpr hb))
  case h_17 ip hpc | h_23 ip hpc | h_31 hpc => exact inv_release h hs (by rw [hpc]; rfl) rfl (by rw [hpc]; rfl)
  case h_18 ip hpc =>
    split at hs
    case isTrue hv =>
      cases hs
      exact inv_loaded h hpc hv
    case isFalse =>
      split_ifs at hs with ht
      cases hs
      exact inv_editing h (.read hpc ht)
  case h_20 ip hpc =>
    cases hs
    exact inv_locking h (.unlock hpc)
  case h_22 ip hpc =>
    split at hs
    case isTrue ht =>
      split_ifs at hs with hb
      cases hs
      exact inv_locking h (.take hpc (Bool.eq_false_iff.mpr hb) ht.1 ht.2.1 ht.2.2)
    case isFalse =>
      cases hs
      exact inv_decide h hpc
  case h_24 ip hpc =>
    cases hs
    exact inv_editing h (.trunc hpc)
  case h_25 ip hpc =>
    cases hs
    exact inv_put h (.inl ⟨hpc, rfl⟩)
  case h_26 ip hpc =>
    cases hs
    exact inv_editing h (.type hpc)
  case h_27 ip hpc =>
    cases hs
    exact inv_put h (.inr ⟨hpc, rfl⟩)
  case h_29 ip hpc =>
    cases hs
    exact inv_locking h (.clear hpc)
  case h_30 ip hpc =>
    cases hs
    exact inv_drop h hpc
  case h_32 => cases hs

/-- Nothing is cached after boot. -/
theorem init_inv (disk : Key → Dinode) (ninodes : Nat) (slot : I → Slot) : Inv (init P disk ninodes slot) := by
  refine ⟨⟨fun q => ⟨nofun, nofun⟩, ?_, nofun⟩, ⟨?_, nofun, nofun, nofun, nofun, nofun⟩,
    ⟨nofun, nofun, ?_, nofun, nofun⟩, ⟨nofun, nofun, ?_, nofun⟩⟩
  · exact fun ip jp hr => absurd hr (lt_irrefl 0)
  · exact fun ip => Finset.sum_const_zero.symm
  · exact fun ip hr => absurd hr (lt_irrefl 0)
  · exact fun k _ ip _ hr => absurd hr (lt_irrefl 0)

theorem reach_inv (h : Reach known s) : Inv s := by
  obtain ⟨disk, ninodes, slot, hrun⟩ := h
  exact run_inv (init_inv disk ninodes slot) (fun _ _ h' ⟨_, _, hk, hs⟩ => step_inv h' hk hs) hrun

/-- **The cache is coherent**: one slot in use per inode; what `iget` recycles is not in use; what is
    read and not locked is what the disk has. -/
structure Coherent (s : St P) : Prop where
  uniq : ∀ ip jp, 0 < (s.slot ip).ref → 0 < (s.slot jp).ref → (s.slot ip).key = (s.slot jp).key → ip = jp
  recycled : ∀ p k f i ip, s.pc p = .gScan k f i (some ip) → NINODE ≤ i → (s.slot ip).ref = 0
  value : ∀ ip, 0 < (s.slot ip).ref → (s.slot ip).valid = true → (s.slot ip).busy = false →
    (s.slot ip).din = s.disk (s.slot ip).key

/-- What a step may do: a slot that passes to another inode is not in use, and an inode is freed on
    the disk by the process that has the only reference to it, when it has no links. -/
structure Allowed (p : P) (s s' : St P) : Prop where
  recycles : ∀ ip, (s'.slot ip).key ≠ (s.slot ip).key → (s.slot ip).ref = 0 ∧ ∃ k f i, s.pc p = .gScan k f i (some ip)
  frees : ∀ k, (s.disk k).type ≠ 0 → (s'.disk k).type = 0 →
    ∃ ip, s.pc p = .pUpdate ip ∧ (s.slot ip).key = k ∧ (s.slot ip).ref = 1 ∧ s.refs p ip = 1 ∧
      (s.slot ip).din.nlink = 0 ∧ (s.disk k).nlink = 0

/-- Run a list of steps that `ok` allows. -/
def runActs (ok : P → St P → Bool) : List (P × Act P) → St P → Option (St P)
  | [], s => some s
  | (p, a) :: l, s => if ok p s = true then (step p a s).bind (runActs ok l) else none

theorem runActs_trans {ok : P → St P → Bool} {l : List (P × Act P)} {s s' : St P} (h : runActs ok l s = some s') :
    Relation.ReflTransGen (Step ok) s s' :=
  run_of_tests (fun _ => rfl) (fun _ _ _ => rfl) (fun x _ _ hok h => ⟨x.1, x.2, hok, h⟩) h

theorem slots_pos : 0 < NINODE := Nat.zero_lt_succ _

/-- The first slot. -/
def slot0 : I := ⟨0, slots_pos⟩

/-- `n` steps without a choice. -/
def go (p : Fin 2) (n : Nat) : List (Fin 2 × Act (Fin 2)) := List.replicate n (p, .go)

/-- A disk whose inodes are files with one link. -/
def booted : St (Fin 2) :=
  init (Fin 2) (fun _ => { Dinode.zero with type := 2, nlink := 1 }) 2 fun _ => ⟨(0, 0), 0, false, false, Dinode.zero⟩

end Xv6Icache
