import Mathlib.Data.List.Basic

/-!
# `cmd/wish/meta.c` — the file name matcher

`match` runs over a file name and a pattern. It remembers only the last `*` it has passed, with the place in the name
where it passed it: after a mismatch it tries the rest of the pattern from one character further on. What `matchdir`
makes of the rest of a pattern after a `/` is a parameter here.

An earlier `*` never has to be tried again. Between two stars every part of the pattern takes one character, so a
match that starts later for the earlier star comes to the later star at a later place, and the later star can take
all up to there.
-/

namespace Xv6Wish

open List

abbrev ch (c : Char) : UInt8 := c.toNat.toUInt8

/-- The pointers of `match`, each as the string it points at; `fmatch` and `pmatch` are there once `star` is set. -/
structure St where
  findex : List UInt8
  pindex : List UInt8
  star : Option (List UInt8 × List UInt8)

variable (matchdir : List UInt8 → Bool)

/-- After a mismatch: from `pmatch` again, one character further on. -/
def St.retry (s : St) : Option St := s.star.map fun m => ⟨m.1.tail, m.2, some (m.1.tail, m.2)⟩

/-- `default:` -/
def St.compare (s : St) : Option St :=
  if s.findex.headD 0 = s.pindex.headD 0 then some { s with findex := s.findex.tail, pindex := s.pindex.tail }
  else s.retry

/-- The range from `c` to `hi` in brackets, as `char`s, has `x`; it ends at a `]`. -/
def inRange (x hi : UInt8) : (fuel : Nat) → (c : UInt8) → Bool
  | 0, _ => false
  | n + 1, c => decide (c.toInt8 ≤ hi.toInt8) && c != ch ']' && (c == x || inRange x hi n (c + 1))

/-- The list in brackets from `pindex` on, after `prev`: whether it has `x`, and what follows the `]`. -/
def listHas (x : UInt8) : (prev : UInt8) → (found : Bool) → (pindex : List UInt8) → Option (Bool × List UInt8)
  | _, _, [] => none
  | prev, found, c :: p =>
    let next := p.headD 0
    if c = ch ']' then some (found, p)
    else if c = ch '\\' then listHas x c (found || next == x) p
    else if c = ch '-' then
      -- a `-` at either end stands for itself, but a range is tried as well
      listHas x c (found || (next == ch ']' || prev == ch '[') && c == x || inRange x next 256 (prev + 1)) p
    else listHas x c (found || c == x) p

/-- `case '[':`; without a `]` the call fails. -/
def St.bracket (s : St) : Option St :=
  match listHas (s.findex.headD 0) 0 false s.pindex with
  | none => none
  | some (true, p) => some { s with findex := s.findex.tail, pindex := p }
  | some (false, _) => s.retry

/-- One round of the loop; `none` sets `mismatch`. -/
def St.round (s : St) : Option St :=
  let c := s.pindex.headD 0
  if c = ch '*' then some ⟨s.findex, s.pindex.tail, some (s.findex, s.pindex.tail)⟩
  else if c = ch '?' then some { s with findex := s.findex.tail, pindex := s.pindex.tail }
  else if c = ch '[' then s.bracket
  else if c = ch '\\' then St.compare { s with pindex := s.pindex.tail }
  else s.compare

/-- What follows the loop. -/
def St.finish (s : St) : Bool :=
  let p := s.pindex.dropWhile (· = ch '*')
  if s.findex.headD 0 = p.headD 0 then true
  else if p.headD 0 = ch '/' then matchdir p.tail
  else false

/-- The loop, `fuel` rounds at most. -/
def loop : (fuel : Nat) → St → Option Bool
  | 0, _ => none
  | n + 1, s =>
    if s.findex.headD 0 = 0 then some (s.finish matchdir)
    else
      match s.round with
      | none => some false
      | some s' => loop n s'

/-- `match` -/
def matchName (fuel : Nat) (string pattern : List UInt8) : Option Bool :=
  if string.headD 0 = ch '.' ∧ pattern.headD 0 ≠ ch '.' then some false
  else loop matchdir fuel ⟨string, pattern, none⟩

/-! ## The language of a pattern -/

/-- A character that stands for itself. -/
abbrev Ordinary (c : UInt8) : Prop := c ∉ [0, ch '*', ch '?', ch '[', ch '\\', ch '/']

/-- A part of a pattern. -/
inductive Tok where
  | star
  | any
  | lit (c : UInt8) (h : Ordinary c)
  | quoted (c : UInt8) (h : c ≠ 0)

/-- The text of a pattern. -/
def text : List Tok → List UInt8
  | [] => []
  | .star :: t => ch '*' :: text t
  | .any :: t => ch '?' :: text t
  | .lit c _ :: t => c :: text t
  | .quoted c _ :: t => ch '\\' :: c :: text t

/-- The part takes one character, and may take this one. -/
def Tok.Takes : Tok → UInt8 → Prop
  | .star, _ => False
  | .any, _ => True
  | .lit d _, c | .quoted d _, c => c = d

/-- The names in the language of a pattern. -/
def Lang : List Tok → List UInt8 → Prop
  | [], f => f = []
  | .star :: t, f => ∃ k, Lang t (f.drop k)
  | x :: t, f => ∃ c g, f = c :: g ∧ x.Takes c ∧ Lang t g

variable {x : Tok} {t ts seg : List Tok} {f g : List UInt8} {c : UInt8} {m : Option (List UInt8 × List UInt8)}

theorem lang_cons (hx : x ≠ .star) : Lang (x :: t) f ↔ ∃ c g, f = c :: g ∧ x.Takes c ∧ Lang t g := by
  cases x with
  | star => exact absurd rfl hx
  | any | lit | quoted => exact Iff.rfl

/-- Parts without a star take one character each. -/
theorem lang_seg (hseg : .star ∉ seg) (h : Lang (seg ++ ts) f) : Lang ts (f.drop seg.length) := by
  induction seg generalizing f with
  | nil => exact h
  | cons x seg ih =>
    rw [mem_cons, not_or] at hseg
    obtain ⟨c, g, rfl, -, h⟩ := (lang_cons (Ne.symm hseg.1)).mp h
    exact ih hseg.2 h

theorem finish_iff : St.finish matchdir ⟨[], text ts, m⟩ = true ↔ Lang ts [] := by
  induction ts with
  | nil => simp [St.finish, Lang, text]
  | cons x t ih =>
    cases x with
    | star => simpa [St.finish, Lang, text] using ih
    | any | quoted => simp [St.finish, Lang, text]
    | lit c h =>
      simp [Ordinary] at h
      simp [St.finish, Lang, text, h, Ne.symm h.1]

/-! ## The loop -/

theorem round_takes (hx : x.Takes c) : St.round ⟨c :: f, text (x :: t), m⟩ = some ⟨f, text t, m⟩ := by
  cases x with
  | star => exact hx.elim
  | any => rfl
  | lit d h =>
    obtain rfl : c = d := hx
    simp [Ordinary] at h
    simp [St.round, text, St.compare, h]
  | quoted d h =>
    obtain rfl : c = d := hx
    simp [St.round, text, St.compare]

/-- At another character, or at the end of the pattern. -/
theorem round_retry (hc : c ≠ 0) (hts : ∀ x ∈ ts.head?, x ≠ .star ∧ ¬ x.Takes c) :
    St.round ⟨c :: f, text ts, m⟩ = St.retry ⟨c :: f, text ts, m⟩ := by
  cases ts with
  | nil => simp [St.round, text, St.compare, hc]
  | cons x t =>
    obtain ⟨hx, hno⟩ := hts x rfl
    cases x with
    | star => exact absurd rfl hx
    | any => exact absurd trivial hno
    | lit d h =>
      have hcd : c ≠ d := hno
      simp [Ordinary] at h
      simp [St.round, text, St.compare, h, hcd]
    | quoted d h =>
      have hcd : c ≠ d := hno
      simp [St.round, text, St.compare, hcd, St.retry]

/-- The loop comes to its end and accepts just when `A` holds. -/
def Ends (s : St) (A : Prop) : Prop := ∃ b n, (b = true ↔ A) ∧ ∀ k, n ≤ k → loop matchdir k s = some b

variable {matchdir} {s s' : St} {A B : Prop}

theorem ends_round (hf : s.findex.headD 0 ≠ 0) (hr : s.round = some s') (hAB : A ↔ B)
    (h : Ends matchdir s' A) : Ends matchdir s B := by
  obtain ⟨b, n, hb, hn⟩ := h
  refine ⟨b, n + 1, hb.trans hAB, fun k hk => ?_⟩
  obtain ⟨j, rfl⟩ := Nat.exists_eq_add_of_lt hk
  rw [loop, if_neg hf, hr]
  exact hn _ (by omega)

theorem ends_mismatch (hf : s.findex.headD 0 ≠ 0) (hr : s.round = none) (hB : ¬ B) : Ends matchdir s B := by
  refine ⟨false, 1, by simp [hB], fun k hk => ?_⟩
  obtain ⟨j, rfl⟩ := Nat.exists_eq_add_of_lt hk
  rw [loop, if_neg hf, hr]

/-- Since the last star, the parts up to `ts` have taken the characters up to `f`. -/
def Since : Option (List UInt8 × List Tok) → List UInt8 → List Tok → Prop
  | none, _, _ => True
  | some y, f, ts => 0 ∉ y.1 ∧ ∃ pre seg, y = (pre ++ f, seg ++ ts) ∧ pre.length = seg.length ∧ .star ∉ seg

/-- What follows the last star matches from a later place. -/
def Later : Option (List UInt8 × List Tok) → Prop
  | none => False
  | some y => ∃ k, Lang y.2 (y.1.tail.drop k)

variable {r : Option (List UInt8 × List Tok)}

theorem since_star (h0 : 0 ∉ f) : Since (some (f, t)) f t := ⟨h0, [], [], rfl, rfl, not_mem_nil⟩

theorem later_star : Lang t f ∨ Later (some (f, t)) ↔ ∃ k, Lang t (f.drop k) := by
  constructor
  · rintro (h | ⟨k, h⟩)
    · exact ⟨0, h⟩
    · exact ⟨k + 1, drop_tail ▸ h⟩
  · rintro ⟨_ | k, h⟩
    · exact .inl h
    · exact .inr ⟨k, drop_tail.symm ▸ h⟩

theorem Since.next (h : Since r (c :: f) (x :: t)) (hx : x ≠ .star) : Since r f t := by
  cases r with
  | none => trivial
  | some y =>
    obtain ⟨h0, pre, seg, rfl, hlen, hseg⟩ := h
    refine ⟨h0, pre ++ [c], seg ++ [x], by simp, by simp [hlen], ?_⟩
    simp [hseg, Ne.symm hx]

/-- Such a match is one of `ts` as well. -/
theorem Since.later (h : Since r f ts) (hl : Later r) : ∃ k, Lang ts (f.drop k) := by
  cases r with
  | none => exact hl.elim
  | some y =>
    obtain ⟨-, pre, seg, rfl, hlen, hseg⟩ := h
    obtain ⟨k, hl⟩ := hl
    have := lang_seg hseg hl
    rw [drop_tail, drop_drop, ← hlen, drop_append, drop_eq_nil_of_le (by omega), nil_append] at this
    exact ⟨_, this⟩

/-- **The loop** accepts the names that match from here or, behind the last star, from a later place. -/
theorem loop_ends (f : List UInt8) (ts : List Tok) (r : Option (List UInt8 × List Tok)) (h0 : 0 ∉ f)
    (hr : Since r f ts) : Ends matchdir ⟨f, text ts, r.map (Prod.map id text)⟩ (Lang ts f ∨ Later r) := by
  match f with
  | [] =>
    refine ⟨_, 1, (finish_iff matchdir (m := r.map (Prod.map id text))).trans (or_iff_left_of_imp fun hl => ?_).symm, ?_⟩
    · obtain ⟨k, h⟩ := hr.later hl
      exact drop_nil ▸ h
    · rintro (_ | k) hk
      · cases hk
      · rfl
  | c :: g =>
    have hc : c ≠ 0 := fun h => h0 (h ▸ mem_cons_self)
    by_cases htry : ∀ x ∈ ts.head?, x ≠ .star ∧ ¬ x.Takes c
    · have hround := round_retry (f := g) (m := r.map (Prod.map id text)) hc htry
      have hno : ¬ Lang ts (c :: g) := by
        cases ts with
        | nil => exact nofun
        | cons x t =>
          intro h
          obtain ⟨_, _, heq, hx, -⟩ := (lang_cons (htry x rfl).1).mp h
          cases heq
          exact (htry x rfl).2 hx
      match r with
      | none => exact ends_mismatch hc hround (not_or.mpr ⟨hno, id⟩)
      | some y =>
        have htail : 0 ∉ y.1.tail := fun h => hr.1 (mem_of_mem_tail h)
        exact ends_round hc hround (later_star.trans (or_iff_right hno).symm)
          (loop_ends y.1.tail y.2 (some (y.1.tail, y.2)) htail (since_star htail))
    · obtain ⟨x, t, hts, hx⟩ : ∃ x t, ts = x :: t ∧ (x ≠ .star → x.Takes c) := by
        cases ts with
        | nil => exact absurd (fun x hx => nomatch hx) htry
        | cons x t => exact ⟨x, t, rfl, by simpa using htry⟩
      rw [hts] at hr ⊢
      by_cases hstar : x = .star
      · subst hstar
        -- an earlier star need not be tried again
        refine ends_round hc rfl (later_star.trans (or_iff_left_of_imp fun hl => ?_).symm)
          (loop_ends (c :: g) t (some (c :: g, t)) h0 (since_star h0))
        obtain ⟨k, j, h⟩ := hr.later hl
        exact ⟨_, drop_drop ▸ h⟩
      · refine ends_round hc (round_takes (hx hstar)) (or_congr_left ?_)
          (loop_ends g t r (fun h => h0 (mem_cons_of_mem _ h)) (hr.next hstar))
        rw [lang_cons hstar]
        constructor
        · exact fun h => ⟨c, g, rfl, hx hstar, h⟩
        · rintro ⟨_, _, heq, -, h⟩
          cases heq
          exact h
termination_by (r.elim (ts.length + 1) (·.2.length), r.elim 0 (·.1.length), f.length)
decreasing_by
  · obtain ⟨-, pre, seg, rfl, -⟩ := hr
    exact .right _ (.left _ _ (by simp))
  · rw [hts]
    refine .left _ _ ?_
    cases r with
    | none => exact Nat.lt_succ_of_lt (Nat.lt_succ_self _)
    | some y =>
      obtain ⟨-, pre, seg, rfl, -⟩ := hr
      simp
      omega
  · rw [hts]
    cases r with
    | none => exact .left _ _ (Nat.lt_succ_self _)
    | some y => exact .right _ (.right _ (Nat.lt_succ_self _))

/-- **`match`** comes to its end and accepts a name as the pattern's language says, and a name with a dot at its
    beginning only for a pattern with a dot at its beginning. -/
theorem match_iff (matchdir : List UInt8 → Bool) (ts : List Tok) {f : List UInt8}
    (h0 : 0 ∉ f) : ∃ b n, (∀ k, n ≤ k → matchName matchdir k f (text ts) = some b) ∧
      (b = true ↔ Lang ts f ∧ (f.head? = some (ch '.') → (text ts).head? = some (ch '.'))) := by
  have hhead : ∀ l : List UInt8, l.headD 0 = ch '.' ↔ l.head? = some (ch '.') := by
    intro l
    cases l <;> simp
  simp only [matchName, ne_eq, hhead]
  by_cases hdot : f.head? = some (ch '.') ∧ ¬ (text ts).head? = some (ch '.')
  · refine ⟨false, 0, fun k _ => if_pos hdot, ?_⟩
    refine iff_of_false (by decide) fun h => hdot.2 (h.2 hdot.1)
  · obtain ⟨b, n, hb, hn⟩ := @loop_ends matchdir f ts none h0 trivial
    refine ⟨b, n, fun k hk => (if_neg hdot).trans (hn k hk), hb.trans ?_⟩
    rw [and_iff_left (not_and_not_right.mp hdot)]
    exact or_iff_left id

/-- The name "aab" and the pattern "a*b". -/
theorem match_iff_aab : ∃ b n, (∀ k, n ≤ k → matchName (fun _ => false) k [97, 97, 98] [97, 42, 98] = some b) ∧
    (b = true ↔ Lang [.lit 97 (by decide), .star, .lit 98 (by decide)] [97, 97, 98] ∧
      (some (97 : UInt8) = some (ch '.') → some (97 : UInt8) = some (ch '.'))) :=
  match_iff (fun _ => false) [.lit 97 (by decide), .star, .lit 98 (by decide)] (by decide)

end Xv6Wish
