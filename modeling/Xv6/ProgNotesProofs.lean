import Xv6.CommandProgProofs

/-!
# Programs with notes

A text over commands can be written a second time with **notes** between its commands: a note changes nothing
and answers nothing, so that erasing the notes gives back the text. What a run notes is then a fact about the
run of the text, and it is there for runs that stop midway as well.
-/

namespace CmdProg

variable {C A E S : Type} {R : C → Type} {α β : Type}

/-- What a command or a note answers. -/
def NoteResp (R : C → Type) : C ⊕ A → Type
  | .inl c => R c
  | .inr _ => Unit

/-- Programs with notes from `A`. -/
abbrev Noted (C : Type) (R : C → Type) (A : Type) := Prog (C ⊕ A) (NoteResp R)

def note (a : A) : Noted C R A Unit := .op (.inr a) .ret

/-- A program without notes. -/
def plain : Prog C R α → Noted C R A α
  | .ret a => .ret a
  | .op c k => .op (.inl c) fun r => plain (k r)

/-- Erase the notes. -/
def erase : Noted C R A α → Prog C R α
  | .ret a => .ret a
  | .op (.inl c) k => .op c fun r => erase (k r)
  | .op (.inr _) k => erase (k ())

/-- What a run notes on the machine `h`. -/
def notes (h : Handler C R E S) : Noted C R A α → S → List A
  | .ret _, _ => []
  | .op (.inl c) k, s =>
    match h c s with
    | .done r s' => notes h (k r) s'
    | .stop _ _ => []
  | .op (.inr a) k, s => a :: notes h (k ()) s

/-- Every note of the text satisfies `P`. -/
def OnlyNotes (P : A → Prop) : Noted C R A α → Prop
  | .ret _ => True
  | .op (.inl _) k => ∀ r, OnlyNotes P (k r)
  | .op (.inr a) k => P a ∧ OnlyNotes P (k ())

/-! ## Erasing -/

@[simp] theorem erase_plain (p : Prog C R α) : erase (plain p : Noted C R A α) = p := by
  induction p with
  | ret a => rfl
  | op c k ih => exact congrArg (Prog.op c) (funext ih)

@[simp] theorem erase_pure (a : α) : erase (pure a : Noted C R A α) = pure a := rfl

@[simp] theorem erase_bind (p : Noted C R A α) (f : α → Noted C R A β) :
    erase (p >>= f) = erase p >>= fun a => erase (f a) := by
  induction p with
  | ret a => rfl
  | op c k ih =>
    cases c with
    | inl c => exact congrArg (Prog.op c) (funext ih)
    | inr a => exact ih ()

@[simp] theorem erase_note (a : A) (f : Unit → Noted C R A β) : erase (note a >>= f) = erase (f ()) := rfl

/-! ## The notes of a run -/

/-- A part without notes that ends with `a` is passed over. -/
theorem notes_plain {h : Handler C R E S} {p : Prog C R α} {s s' : S} {a : α} (hp : p.run h s = .done a s')
    (f : α → Noted C R A β) : notes h (plain p >>= f) s = notes h (f a) s' := by
  induction p generalizing s with
  | ret b => cases hp; rfl
  | op c k ih =>
    have htext : (plain (.op c k) >>= f : Noted C R A β) = .op (.inl c) fun r => plain (k r) >>= f := rfl
    rw [htext, notes]
    rw [run_op] at hp
    cases hc : h c s with
    | done r s1 => rw [hc] at hp; exact ih r hp
    | stop e s1 => rw [hc] at hp; cases hp

/-- A run notes what its text notes. -/
theorem OnlyNotes.mem {P : A → Prop} {h : Handler C R E S} {p : Noted C R A α} (hp : OnlyNotes P p) {s : S}
    {a : A} (ha : a ∈ notes h p s) : P a := by
  induction p generalizing s with
  | ret b => cases ha
  | op c k ih =>
    cases c with
    | inl c =>
      rw [notes] at ha
      cases hc : h c s with
      | done r s1 => rw [hc] at ha; exact ih r (hp r) ha
      | stop e s1 => rw [hc] at ha; cases ha
    | inr b =>
      rcases List.mem_cons.mp ha with rfl | ha
      · exact hp.1
      · exact ih () hp.2 ha

/-! ## Texts whose notes satisfy a predicate -/

section Only

variable {P : A → Prop}

theorem only_pure (a : α) : OnlyNotes P (pure a : Noted C R A α) := trivial

theorem only_plain (p : Prog C R α) : OnlyNotes P (plain p : Noted C R A α) := by
  induction p with
  | ret a => exact trivial
  | op c k ih => exact fun r => ih r

theorem only_bind {p : Noted C R A α} {f : α → Noted C R A β} (hp : OnlyNotes P p)
    (hf : ∀ a, OnlyNotes P (f a)) : OnlyNotes P (p >>= f) := by
  induction p with
  | ret a => exact hf a
  | op c k ih =>
    cases c with
    | inl c => exact fun r => ih r (hp r)
    | inr a => exact ⟨hp.1, ih () hp.2⟩

theorem only_note {a : A} (ha : P a) : OnlyNotes P (note a : Noted C R A Unit) := ⟨ha, trivial⟩

end Only

end CmdProg
