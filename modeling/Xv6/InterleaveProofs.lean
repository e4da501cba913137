import Mathlib.Data.Fintype.Card

/-!
# Interleaved processes — locks, counters and runs

Finitely many processes, each at a control point; a step moves one of them. Two facts come
up in every such system and are proved here for any type of control points:

* **`Owner`** — a lock is owned by the process whose control point lies in the section it
  protects, and by nobody if there is no such process;
* **`count`** — a counter in shared memory counts the processes whose control points lie in
  a region, because every step in or out of the region adjusts it.

Both come with one lemma for each way a step can change them. `run_inv` is the induction
over runs.
-/

namespace Interleave

open Function Finset Option

variable {P C : Type}

/-- The owner `o` of a lock is the process at a control point of its section. -/
def Owner (sec : C → Bool) (pc : P → C) (o : Option P) : Prop :=
  ∀ q, sec (pc q) = true ↔ o = some q

section Owner

variable {sec : C → Bool} {pc : P → C} {o : Option P} {p : P} {c : C}

theorem Owner.unique (h : Owner sec pc o) {q : P} (hp : sec (pc p) = true) (hq : sec (pc q) = true) : p = q := by
  have h1 := (h p).mp hp
  have h2 := (h q).mp hq
  rw [h1] at h2
  exact some.inj h2

theorem Owner.free (h : Owner sec pc none) (q : P) : sec (pc q) = false := by
  cases hq : sec (pc q) with
  | false => rfl
  | true => cases (h q).mp hq

/-- A step of several processes at once that none of them uses to enter or leave. -/
theorem owner_map (h : Owner sec pc o) {f : C → C} (hf : ∀ c, sec (f c) = sec c) : Owner sec (fun q => f (pc q)) o := by
  intro q
  rw [hf]
  exact h q

/-- **A step of `p`**, in which the others stay where they are with respect to the section. -/
theorem owner_step {pc' : P → C} {o' : Option P} (h : Owner sec pc o) (hothers : ∀ q, q ≠ p → sec (pc' q) = sec (pc q))
    (hin : sec (pc' p) = true → o' = some p ∧ (o = none ∨ sec (pc p) = true))
    (hout : sec (pc' p) = false → o' = if sec (pc p) = true then none else o) : Owner sec pc' o' := by
  intro q
  cases hp' : sec (pc' p) with
  | true =>
    obtain ⟨ho', hwas⟩ := hin hp'
    by_cases hqp : q = p
    · subst hqp
      exact ⟨fun _ => ho', fun _ => hp'⟩
    · rw [hothers q hqp, ho']
      constructor
      · intro hq
        rcases hwas with hnone | hpin
        · rw [hnone] at h
          rw [h.free q] at hq
          cases hq
        · exact absurd (h.unique hq hpin) hqp
      · exact fun heq => absurd (some.inj heq).symm hqp
  | false =>
    have ho' := hout hp'
    by_cases hqp : q = p
    · subst hqp
      rw [hp', ho']
      constructor
      · exact nofun
      · intro heq
        cases hpin : sec (pc q) with
        | true => rw [hpin, if_pos rfl] at heq; cases heq
        | false =>
          rw [hpin, if_neg (by decide)] at heq
          rw [(h q).mpr heq] at hpin
          cases hpin
    · rw [hothers q hqp, ho']
      cases hpin : sec (pc p) with
      | true =>
        constructor
        · exact fun hq => absurd (h.unique hq hpin) hqp
        · exact nofun
      | false => exact h q

/-- A step of `p` that stays inside the section or outside of it. -/
theorem owner_stay {pc' : P → C} (h : Owner sec pc o) (hothers : ∀ q, q ≠ p → sec (pc' q) = sec (pc q))
    (hp : sec (pc' p) = sec (pc p)) : Owner sec pc' o := by
  intro q
  by_cases hqp : q = p
  · rw [hqp, hp]
    exact h p
  · rw [hothers q hqp]
    exact h q

variable [DecidableEq P]

theorem owner_same (h : Owner sec pc o) (hc : sec c = sec (pc p)) : Owner sec (update pc p c) o :=
  owner_stay h (fun q hq => by rw [update_of_ne hq]) (by rw [update_self, hc])

/-- A step into the section, when the lock is free. -/
theorem owner_acquire (h : Owner sec pc none) (hc : sec c = true) : Owner sec (update pc p c) (some p) :=
  owner_step h (fun q hq => by rw [update_of_ne hq]) (fun _ => ⟨rfl, .inl rfl⟩)
    fun hout => by rw [update_self, hc] at hout; cases hout

/-- A step out of the section. -/
theorem owner_release (h : Owner sec pc o) (hp : sec (pc p) = true) (hc : sec c = false) :
    Owner sec (update pc p c) none :=
  owner_step h (fun q hq => by rw [update_of_ne hq])
    (fun hin => by rw [update_self, hc] at hin; exact nomatch hin) fun _ => by rw [if_pos hp]

end Owner

section Count

variable [Fintype P] {reg : C → Bool} {pc : P → C} {p : P} {c : C}

/-- How many processes are in the region. -/
def count (reg : C → Bool) (pc : P → C) : Nat :=
  (univ.filter fun q => reg (pc q) = true).card

theorem count_map {f : C → C} (hf : ∀ c, reg (f c) = reg c) : count reg (fun q => f (pc q)) = count reg pc := by
  show (univ.filter _).card = (univ.filter _).card
  congr 1
  refine filter_congr ?_
  intro q _
  rw [hf]

theorem count_eq_zero : count reg pc = 0 ↔ ∀ q, reg (pc q) = false := by
  show (univ.filter _).card = 0 ↔ _
  rw [card_eq_zero, filter_eq_empty_iff]
  constructor
  · intro h q
    cases hq : reg (pc q) with
    | false => rfl
    | true => exact absurd hq (h (mem_univ q))
  · intro h q _ hq
    rw [h q] at hq
    cases hq

theorem count_pos : 0 < count reg pc ↔ ∃ q, reg (pc q) = true := by
  constructor
  · intro hpos
    by_contra hno
    have hz : count reg pc = 0 := count_eq_zero.mpr fun q => by
      cases hq : reg (pc q) with
      | false => rfl
      | true => exact absurd ⟨q, hq⟩ hno
    omega
  · rintro ⟨q, hq⟩
    rcases Nat.eq_zero_or_pos (count reg pc) with hz | hpos
    · rw [count_eq_zero.mp hz q] at hq
      cases hq
    · exact hpos

variable [DecidableEq P]

theorem count_same (hc : reg c = reg (pc p)) : count reg (update pc p c) = count reg pc := by
  show (univ.filter _).card = (univ.filter _).card
  congr 1
  refine filter_congr ?_
  intro q _
  by_cases hqp : q = p
  · subst hqp; rw [update_self, hc]
  · rw [update_of_ne hqp]

theorem count_enter (hp : reg (pc p) = false) (hc : reg c = true) : count reg (update pc p c) = count reg pc + 1 := by
  have hset : (univ.filter fun q => reg (update pc p c q) = true)
      = insert p (univ.filter fun q => reg (pc q) = true) := by
    ext q
    rw [mem_insert, mem_filter, mem_filter]
    by_cases hqp : q = p
    · subst hqp; simp [hc]
    · rw [update_of_ne hqp]; simp [hqp]
  show (univ.filter _).card = _
  rw [hset, card_insert_of_notMem (by simp [hp])]
  rfl

theorem count_leave (hp : reg (pc p) = true) (hc : reg c = false) : count reg pc = count reg (update pc p c) + 1 := by
  have h1 : reg (update pc p c p) = false := by rw [update_self, hc]
  have h2 := count_enter (c := pc p) h1 hp
  rw [update_idem, update_eq_self] at h2
  exact h2

end Count

/-- **Runs.** What holds at the start and survives every step holds in every state that is
    reached. -/
theorem run_inv {S : Type} {R : S → S → Prop} {I : S → Prop} {s0 s : S} (h0 : I s0)
    (hstep : ∀ s s', I s → R s s' → I s') (hrun : Relation.ReflTransGen R s0 s) : I s := by
  induction hrun with
  | refl => exact h0
  | tail _ hst ih => exact hstep _ _ ih hst

/-- Steps taken one after the other, as long as each is possible, are a run. -/
theorem run_of_steps {S A : Type} {R : S → S → Prop} {r : List A → S → Option S} {f : A → S → Option S}
    (hnil : ∀ s, r [] s = some s) (hcons : ∀ x l s, r (x :: l) s = (f x s).bind (r l))
    (hR : ∀ x s s', f x s = some s' → R s s') {l : List A} :
    ∀ {s s' : S}, r l s = some s' → Relation.ReflTransGen R s s' := by
  induction l with
  | nil =>
    intro s s' h
    rw [hnil] at h
    cases h
    exact .refl
  | cons x l ih =>
    intro s s' h
    rw [hcons] at h
    obtain ⟨s1, h1, h2⟩ := bind_eq_some_iff.mp h
    exact .head (hR x s s1 h1) (ih h2)

/-- Steps that pass a test are a run. -/
theorem run_of_tests {S A : Type} {R : S → S → Prop} {r : List A → S → Option S} {f : A → S → Option S}
    {ok : A → S → Prop} [∀ x s, Decidable (ok x s)] (hnil : ∀ s, r [] s = some s)
    (hcons : ∀ x l s, r (x :: l) s = if ok x s then (f x s).bind (r l) else none)
    (hR : ∀ x s s', ok x s → f x s = some s' → R s s') {l : List A} {s s' : S} (h : r l s = some s') :
    Relation.ReflTransGen R s s' := by
  refine run_of_steps (f := fun x s => if ok x s then f x s else none) hnil (fun x l s => ?_) (fun x s s' h => ?_) h
  · rw [hcons]
    split_ifs <;> rfl
  · split_ifs at h with hx
    exact hR x s s' hx h

end Interleave
