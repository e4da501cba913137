import Mathlib.Tactic.Common

/-!
# Programs over commands

A program is a tree of commands: at each node it issues a command `c` and goes on with
the answer, which has type `R c`. The text of a program says nothing about what a command
does; a **handler** does, as a function from a command and a machine state to an outcome.

This file is the part that does not depend on the commands:

* **`Prog`**, its monad structure, and **`run`** under a handler;
* **inversion** of runs of a sequence (`run_bind_done`);
* **`Meets`** — every command issued on the way satisfies a predicate, and the result does
  if there is one — with the rules for sequences and consequence;
* **`Code`** — a handler's own code, as a function on machine states — and **`Emits`** — the
  events it adds to a history the machine keeps, if it stops midway a prefix of them.
-/

namespace CmdProg

open List

/-- How a run ends: with a result, or stopped for a reason `e`. The machine state at the
    end is kept in both cases. -/
inductive Out (E S α : Type) : Type where
  | done (a : α) (s : S)
  | stop (e : E) (s : S)

/-- The state at the end of a run, however it ended. -/
def Out.state {E S α : Type} : Out E S α → S
  | .done _ s => s
  | .stop _ s => s

/-- The result of a run and the state at its end, if it was not stopped. -/
def Out.done? {E S α : Type} : Out E S α → Option (α × S)
  | .done a s => some (a, s)
  | .stop _ _ => none

theorem Out.done?_eq_some {E S α : Type} {o : Out E S α} {x : α × S} : o.done? = some x ↔ o = .done x.1 x.2 := by
  cases o with
  | done a s => simp [Out.done?, Prod.ext_iff]
  | stop e s => simp [Out.done?]

/-- Go on after a run that ended with a result. -/
def Out.andThen {E S α β : Type} (o : Out E S α) (f : α → S → Out E S β) : Out E S β :=
  match o with
  | .done a s => f a s
  | .stop e s => .stop e s

/-- A program over the commands `C`, where the answer to `c` has type `R c`. -/
inductive Prog (C : Type) (R : C → Type) (α : Type) : Type where
  | ret (a : α)
  | op (c : C) (k : R c → Prog C R α)

/-- A machine: what each command does in each state. -/
abbrev Handler (C : Type) (R : C → Type) (E S : Type) := (c : C) → S → Out E S (R c)

variable {C : Type} {R : C → Type} {E S T Q : Type} {α β : Type}

/-- Sequencing of programs. -/
def Prog.bind (p : Prog C R α) (f : α → Prog C R β) : Prog C R β :=
  match p with
  | .ret a => f a
  | .op c k => .op c (fun r => (k r).bind f)

instance : Monad (Prog C R) where
  pure := .ret
  bind := .bind

/-- A single command as a program. -/
def Prog.cmd (c : C) : Prog C R (R c) := .op c .ret

/-- Run a program on a machine. -/
def Prog.run (h : Handler C R E S) : Prog C R α → S → Out E S α
  | .ret a, s => .done a s
  | .op c k, s => (h c s).andThen (fun r s' => (k r).run h s')

section

variable (h : Handler C R E S)
include h

theorem run_op (c : C) (k : R c → Prog C R α) (s : S) :
    (Prog.op c k).run h s = (h c s).andThen (fun r s' => (k r).run h s') := rfl

@[simp] theorem run_single (c : C) (s : S) : (Prog.cmd c : Prog C R (R c)).run h s = h c s := by
  show (h c s).andThen (fun r s' => .done r s') = h c s
  cases h c s <;> rfl

/-- A run of a sequence is a run of the first part, then of the second. -/
theorem run_bind (p : Prog C R α) (f : α → Prog C R β) (s : S) :
    (p >>= f).run h s = (p.run h s).andThen (fun a s' => (f a).run h s') := by
  induction p generalizing s with
  | ret a => rfl
  | op c k ih =>
    show (h c s).andThen (fun r s' => ((k r) >>= f).run h s')
      = ((h c s).andThen (fun r s' => (k r).run h s')).andThen (fun a s' => (f a).run h s')
    cases h c s with
    | done r s' => exact ih r s'
    | stop e s' => rfl

end

/-- **Inversion of a finished sequence**: both parts finished, the second from where the
    first ended. -/
theorem run_bind_done {h : Handler C R E S} {p : Prog C R α} {f : α → Prog C R β} {s s'' : S} {b : β} :
    (p >>= f).run h s = .done b s'' ↔ ∃ a s', p.run h s = .done a s' ∧ (f a).run h s' = .done b s'' := by
  rw [run_bind]
  cases hp : p.run h s with
  | done a s' =>
    constructor
    · intro hf; exact ⟨a, s', rfl, hf⟩
    · rintro ⟨a', s1, heq, hf⟩
      cases heq
      exact hf
  | stop e s' =>
    constructor
    · intro hf; cases hf
    · rintro ⟨a', s1, heq, _⟩; cases heq

theorem run_bind_of_done {h : Handler C R E S} {p : Prog C R α} {f : α → Prog C R β}
    {s s' : S} {a : α} (hp : p.run h s = .done a s') : (p >>= f).run h s = (f a).run h s' := by
  rw [run_bind, hp]; rfl

/-! ## Predicates along a run -/

/-- Every command the run issues satisfies `P` in the state in which it is issued, and if
    the run finishes, its result and last state satisfy `Q`. -/
def Meets (h : Handler C R E S) (P : C → S → Prop) (Q : α → S → Prop) :
    Prog C R α → S → Prop
  | .ret a, s => Q a s
  | .op c k, s => P c s ∧ ∀ r s', h c s = .done r s' → Meets h P Q (k r) s'

section Meets

variable {h : Handler C R E S} {P P' : C → S → Prop} {Q Q' : α → S → Prop}
  {p : Prog C R α} {f : α → Prog C R β} {s s' : S} {a : α}

/-- A command whose answer is known. -/
theorem meets_op {c : C} {k : R c → Prog C R α} {r : R c} (hP : P c s) (hr : h c s = .done r s')
    (hk : Meets h P Q (k r) s') : Meets h P Q (.op c k) s := by
  refine ⟨hP, fun r' s'' hr' => ?_⟩
  rw [hr] at hr'
  cases hr'
  exact hk

/-- A command that is described by its runs. -/
theorem meets_runs {c : C} {M : R c → S → Prop} {k : R c → Prog C R α} (hP : P c s)
    (hM : ∀ r s', (Prog.cmd c : Prog C R (R c)).run h s = .done r s' → M r s')
    (hk : ∀ r s', M r s' → Meets h P Q (k r) s') : Meets h P Q (.op c k) s := by
  refine ⟨hP, fun r s' hr => hk r s' (hM r s' ?_)⟩
  rw [run_single]
  exact hr

/-- **The rule for sequences.** -/
theorem meets_bind {Q : β → S → Prop} (hp : Meets h P (fun a s' => Meets h P Q (f a) s') p s) :
    Meets h P Q (p >>= f) s := by
  induction p generalizing s with
  | ret a => exact hp
  | op c k ih => exact ⟨hp.1, fun r s' hr => ih r (hp.2 r s' hr)⟩

/-- **The rule of consequence.** -/
theorem meets_mono (hp : Meets h P Q p s)
    (hP : ∀ c s, P c s → P' c s) (hQ : ∀ a s', Q a s' → Q' a s') : Meets h P' Q' p s := by
  induction p generalizing s with
  | ret a => exact hQ a s hp
  | op c k ih => exact ⟨hP c s hp.1, fun r s' hr => ih r (hp.2 r s' hr)⟩

/-- A sequence whose first part has been dealt with by a rule of its own. -/
theorem meets_seq {M : α → S → Prop} {Q : β → S → Prop} (hp : Meets h P M p s)
    (hf : ∀ a s', M a s' → Meets h P Q (f a) s') : Meets h P Q (p >>= f) s :=
  meets_bind (meets_mono hp (fun _ _ hc => hc) hf)

/-- Code in last position is code followed by nothing. -/
theorem meets_last (hp : Meets h P Q (p >>= pure) s) : Meets h P Q p s := by
  have heq : ∀ p : Prog C R α, p >>= pure = p := by
    intro p
    induction p with
    | ret a => rfl
    | op c k ih =>
      show Prog.op c (fun r => k r >>= pure) = Prog.op c k
      congr 1
      funext r
      exact ih r
  rw [heq] at hp
  exact hp

theorem meets_run (hp : Meets h P Q p s) (hr : p.run h s = .done a s') : Q a s' := by
  induction p generalizing s with
  | ret b => cases hr; exact hp
  | op c k ih =>
    rw [run_op] at hr
    cases hc : h c s with
    | done r s1 =>
      rw [hc] at hr
      exact ih r (hp.2 r s1 hc) hr
    | stop e s1 => rw [hc] at hr; cases hr

/-- A run that stops does so at a command that it was allowed to issue. -/
theorem meets_stop {e : E} (hp : Meets h P Q p s)
    (hr : p.run h s = .stop e s') : ∃ c t, P c t ∧ h c t = .stop e s' := by
  induction p generalizing s with
  | ret b => cases hr
  | op c k ih =>
    rw [run_op] at hr
    cases hc : h c s with
    | done r s1 =>
      rw [hc] at hr
      exact ih r (hp.2 r s1 hc) hr
    | stop e' s1 =>
      rw [hc] at hr
      cases hr
      exact ⟨c, s, hp.1, hc⟩

end Meets

/-! ## Code of a machine with a history -/

/-- Code of a machine: a function from states to outcomes. -/
def Code (E S α : Type) : Type := S → Out E S α

instance : Monad (Code E S) where
  pure := fun a s => .done a s
  bind := fun m f s => (m s).andThen f

theorem code_bind (m : Code E S α) (f : α → Code E S β) (s : S) : (m >>= f) s = (m s).andThen f := rfl

theorem code_bind_of_done {m : Code E S α} {f : α → Code E S β} {s s' : S} {a : α}
    (hm : m s = .done a s') : (m >>= f) s = f a s' := by
  rw [code_bind, hm]; rfl

theorem code_bind_of_stop {m : Code E S α} {f : α → Code E S β} {s s' : S} {e : E}
    (hm : m s = .stop e s') : (m >>= f) s = .stop e s' := by
  rw [code_bind, hm]; rfl

/-- The machine records events in `hist`. From `s`, the code adds exactly the events `ws`
    and ends in `Q`, or stops after a prefix of them; under `G` it does not stop. -/
def Emits {W : Type} (hist : S → List W) (G : Prop) (m : Code E S α) (s : S) (ws : List W)
    (Q : α → S → Prop) : Prop :=
  match m s with
  | .done a s' => hist s' = hist s ++ ws ∧ Q a s'
  | .stop _ s' => ¬ G ∧ ∃ vs, vs <+: ws ∧ hist s' = hist s ++ vs

section Emits

variable {W : Type} {hist : S → List W} {G : Prop} {s s' : S} {ws vs : List W} {m : Code E S α}
  {f : α → Code E S β} {a : α} {Q : α → S → Prop}

theorem emits_pure (hQ : Q a s) : Emits hist G (pure a : Code E S α) s [] Q :=
  ⟨(append_nil _).symm, hQ⟩

/-- A step that finishes without an event. -/
theorem emits_done (hm : m s = .done a s') (hh : hist s' = hist s) (hQ : Q a s') : Emits hist G m s [] Q := by
  simp only [Emits, hm]
  exact ⟨by rw [hh, append_nil], hQ⟩

/-- A step that finishes with the events `ws`. -/
theorem emits_event (hm : m s = .done a s') (hh : hist s' = hist s ++ ws) (hQ : Q a s') : Emits hist G m s ws Q := by
  simp only [Emits, hm]
  exact ⟨hh, hQ⟩

/-- A step that stops without an event. -/
theorem emits_stop {e : E} (hm : m s = .stop e s') (hG : ¬ G) (hh : hist s' = hist s) : Emits hist G m s ws Q := by
  simp only [Emits, hm]
  exact ⟨hG, [], nil_prefix, by rw [hh, append_nil]⟩

/-- A sequence adds what its parts add. -/
theorem emits_bind {P : α → S → Prop} {Q : β → S → Prop} (hm : Emits hist G m s ws P)
    (hf : ∀ a s', P a s' → Emits hist G (f a) s' vs Q) : Emits hist G (m >>= f) s (ws ++ vs) Q := by
  simp only [Emits, code_bind] at hm ⊢
  cases hr : m s with
  | stop e s' =>
    rw [hr] at hm
    obtain ⟨hG, us, hpre, heq⟩ := hm
    exact ⟨hG, us, hpre.trans (prefix_append _ _), heq⟩
  | done a s' =>
    rw [hr] at hm
    obtain ⟨heq, hP⟩ := hm
    have h2 := hf a s' hP
    simp only [Emits] at h2
    show match f a s' with
      | .done b s'' => hist s'' = hist s ++ (ws ++ vs) ∧ Q b s''
      | .stop _ s'' => ¬ G ∧ ∃ us, us <+: ws ++ vs ∧ hist s'' = hist s ++ us
    cases hr2 : f a s' with
    | done b s'' =>
      rw [hr2] at h2
      exact ⟨by rw [h2.1, heq, append_assoc], h2.2⟩
    | stop e s'' =>
      rw [hr2] at h2
      obtain ⟨hG, us, hpre, heq2⟩ := h2
      refine ⟨hG, ws ++ us, ?_, by rw [heq2, heq, append_assoc]⟩
      exact (prefix_append_right_inj ws).mpr hpre

/-- A sequence whose first part adds nothing. -/
theorem emits_then {P : α → S → Prop} {Q : β → S → Prop} (hm : Emits hist G m s [] P)
    (hf : ∀ a s', P a s' → Emits hist G (f a) s' vs Q) : Emits hist G (m >>= f) s vs Q :=
  emits_bind hm hf

theorem emits_mono {P Q : α → S → Prop} (hm : Emits hist G m s ws P)
    (himp : ∀ a s', P a s' → Q a s') : Emits hist G m s ws Q := by
  simp only [Emits] at hm ⊢
  cases hr : m s with
  | done a s' => rw [hr] at hm; exact ⟨hm.1, himp a s' hm.2⟩
  | stop e s' => rw [hr] at hm; exact hm

end Emits

end CmdProg
