import Xv6.WishMatchProofs

/-!
# `cmd/wish/clex.c` — completion of a word

`extend` builds the common beginning of the candidates place by place. At each place the first candidate sets the new
character before the others have been looked at. A candidate that ends there stops the search but leaves the
character: then one too many is inserted.
-/

namespace Xv6Wish

open List

/-- A candidate, and whether its mode is that of a directory. -/
structure Candidate where
  name : List UInt8
  isDir : Bool

/-- What `extend` takes of the word. -/
def lastPart (word : List UInt8) : List UInt8 :=
  let word := if word.head? = some (ch '~') ∨ word.head? = some (ch '$') then word.tail else word
  (word.reverse.takeWhile (· ≠ ch '/')).reverse

/-- The inner loop at place `i`: the last value of `newword[i]`, which was `x`, and that of `nostop`. -/
def column (i : Nat) : (x : UInt8) → (names : List (List UInt8)) → UInt8 × Bool
  | x, [] => (x, true)
  | x, n :: ns =>
    if n.length ≤ i then (x, false)
    else
      let x := if x = 0 then n.getD i 0 else x
      if x ≠ n.getD i 0 then (0, false) else column i x ns

/-- The outer loop: what it writes into `newword` from place `i` on. -/
def written (names : List (List UInt8)) (maxlen i : Nat) : List UInt8 :=
  if i < maxlen then
    let c := column i 0 names
    c.1 :: if c.2 then written names maxlen (i + 1) else []
  else []
termination_by maxlen - i

/-- What is inserted behind a single candidate. -/
def ending : List Candidate → List UInt8
  | [c] => [if c.isDir then ch '/' else ch ' ']
  | _ => []

/-- `extend`: the characters that it inserts at the cursor, if there is memory for `newword`. `maxlen` is the greatest
    length of a candidate. -/
def extend (word : List UInt8) (carray : List Candidate) : List UInt8 :=
  let names := carray.map Candidate.name
  let maxlen := names.foldr (fun n m => max n.length m) 0
  if carray = [] then []
  else (written names maxlen (lastPart word).length).takeWhile (· ≠ 0) ++ ending carray

/-! ## The common beginning -/

/-- The longest beginning that the names have in common. -/
structure IsCommon (names : List (List UInt8)) (p : List UInt8) : Prop where
  common : ∀ n ∈ names, p <+: n
  longest : ∀ q : List UInt8, (∀ n ∈ names, q <+: n) → q <+: p

/-- The common beginning `p` is a candidate, the first candidate goes on with `x`, and so do those before `p`. -/
structure Early (n : List UInt8) (ns : List (List UInt8)) (p : List UInt8) (x : UInt8) : Prop where
  common : IsCommon (n :: ns) p
  first : p ++ [x] <+: n
  found : ns.find? (fun m => ¬ p ++ [x] <+: m) = some p

variable {p q n : List UInt8} {ns : List (List UInt8)} {x : UInt8}

theorem IsCommon.unique {names : List (List UInt8)} (hp : IsCommon names p) (hq : IsCommon names q) : p = q :=
  (hq.longest p hp.common).eq_of_length_le (hp.longest q hq.common).length_le

theorem not_longer_prefix : ¬ p ++ [x] <+: p :=
  fun h => Nat.not_le.mpr (by simp) h.length_le

/-- The first candidate that does not go on with `x` decides what is left at the place. -/
theorem column_eq (hx : x ≠ 0) (hp : ∀ m ∈ ns, p <+: m) : column p.length x ns =
    match ns.find? (fun m => ¬ p ++ [x] <+: m) with
    | none => (x, true)
    | some m => if m = p then (x, false) else (0, false) := by
  induction ns with
  | nil => rfl
  | cons m ns ih =>
    obtain ⟨t, rfl⟩ := hp m mem_cons_self
    have ih := ih fun m hm => hp m (mem_cons_of_mem _ hm)
    cases t with
    | nil => simp [column, not_longer_prefix]
    | cons y t =>
      have hlen : ¬ (p ++ y :: t).length ≤ p.length := Nat.not_le.mpr (by simp)
      rw [column, if_neg hlen]
      by_cases hxy : x = y
      · subst hxy
        simpa [hx, prefix_append_right_inj] using ih
      · simp [hx, hxy, prefix_append_right_inj]

/-- **The outer loop** writes the rest of the common beginning, and one character more if a candidate ends early. -/
theorem written_spec (ns : List (List UInt8)) (maxlen : Nat) (t : List UInt8) (hn : n = p ++ t)
    (hlen : n.length ≤ maxlen) (h0 : 0 ∉ n) (hp : ∀ m ∈ ns, p <+: m) : ∃ q r, IsCommon (n :: ns) (p ++ q) ∧
      (written (n :: ns) maxlen p.length).takeWhile (· ≠ 0) = q ++ r ∧ (r = [] ↔ ∀ p x, ¬ Early n ns p x) := by
  induction t generalizing p with
  | nil =>
    rw [append_nil] at hn
    subst hn
    have hcommon : IsCommon (n :: ns) n :=
      ⟨forall_mem_cons.mpr ⟨prefix_rfl, hp⟩, fun q hq => hq n mem_cons_self⟩
    refine ⟨[], [], by rwa [append_nil], ?_, iff_of_true rfl fun p x he => ?_⟩
    · rw [written]
      split_ifs <;> simp [column]
    · obtain rfl := he.common.unique hcommon
      exact not_longer_prefix he.first
  | cons x t ih =>
    have hx : x ≠ 0 := by
      rintro rfl
      simp [hn] at h0
    have hlt : p.length < maxlen := by
      rw [hn, length_append, length_cons] at hlen
      omega
    have hin : ¬ n.length ≤ p.length := Nat.not_le.mpr (by simp [hn])
    have hcol : column p.length 0 (n :: ns) = column p.length x ns := by
      rw [column, if_neg hin]
      simp [hn]
    rw [written, if_pos hlt, hcol, column_eq hx hp]
    cases hf : ns.find? (fun m => ¬ p ++ [x] <+: m) with
    | none =>
      have hnext : ∀ m ∈ ns, p ++ [x] <+: m := by simpa using hf
      obtain ⟨q, r, hq, hw, hr⟩ := @ih (p ++ [x]) (by simp [hn]) hnext
      refine ⟨x :: q, r, by simpa using hq, ?_, hr⟩
      rw [length_append, length_singleton] at hw
      simpa [hx] using hw
    | some m =>
      have hm : m ∈ ns ∧ ¬ p ++ [x] <+: m := ⟨mem_of_find?_eq_some hf, by simpa using find?_some hf⟩
      -- what is longer than `p` and begins `n` begins with `p ++ [x]`
      have hcommon : IsCommon (n :: ns) p := by
        refine ⟨forall_mem_cons.mpr ⟨⟨_, hn.symm⟩, hp⟩, fun q hq => ?_⟩
        refine prefix_of_prefix_length_le (hq n mem_cons_self) ⟨_, hn.symm⟩ (Nat.not_lt.mp fun hlt => hm.2 ?_)
        have hlt' : (p ++ [x]).length ≤ q.length := by rwa [length_append]
        refine .trans ?_ (hq m (mem_cons_of_mem _ hm.1))
        exact prefix_of_prefix_length_le ⟨t, by simp [hn]⟩ (hq n mem_cons_self) hlt'
      have hearly : ∀ p' y, Early n ns p' y → m = p := by
        intro p' y he
        obtain rfl := he.common.unique hcommon
        have hfirst := he.first
        rw [hn, prefix_append_right_inj] at hfirst
        obtain rfl : y = x := by simpa using hfirst
        exact Option.some_inj.mp (hf.symm.trans he.found)
      by_cases hmp : m = p
      · refine ⟨[], [x], by rwa [append_nil], by simp [hmp, hx], iff_of_false nofun fun hno => ?_⟩
        exact hno p x ⟨hcommon, ⟨t, by simp [hn]⟩, hmp ▸ hf⟩
      · refine ⟨[], [], by rwa [append_nil], by simp [hmp], iff_of_true rfl fun p' y he => ?_⟩
        exact hmp (hearly p' y he)

/-- **`extend`** inserts what it should exactly if no candidate ends early. -/
theorem extend_exact_iff (word : List UInt8) (c : Candidate) (carray : List Candidate)
    (h : ∀ x ∈ c :: carray, 0 ∉ x.name ∧ lastPart word <+: x.name) :
    (∃ new, IsCommon ((c :: carray).map Candidate.name) (lastPart word ++ new) ∧
      extend word (c :: carray) = new ++ ending (c :: carray)) ↔
    ∀ p x, ¬ Early c.name (carray.map Candidate.name) p x := by
  obtain ⟨h0, t, ht⟩ := h c mem_cons_self
  obtain ⟨q, r, hq, hw, hr⟩ := written_spec (carray.map Candidate.name)
    (((c :: carray).map Candidate.name).foldr (fun n m => max n.length m) 0) t ht.symm
    (Nat.le_max_left _ _) h0 (by simpa using fun x hx => (h x (mem_cons_of_mem _ hx)).2)
  have hext : extend word (c :: carray) = q ++ r ++ ending (c :: carray) := by
    rw [← hw]
    rfl
  rw [← hr, hext]
  constructor
  · rintro ⟨new, hnew, heq⟩
    obtain rfl := append_cancel_left (hnew.unique hq)
    simpa using append_cancel_right heq
  · rintro rfl
    exact ⟨q, hq, by rw [append_nil]⟩

/-- "ab" before "abc": no candidate ends early, and "b" is inserted. -/
theorem extend_exact_ab : ∃ new, IsCommon [[97, 98], [97, 98, 99]] ([97] ++ new) ∧
    extend [97] [⟨[97, 98], false⟩, ⟨[97, 98, 99], false⟩] = new ++ [] :=
  (extend_exact_iff [97] ⟨[97, 98], false⟩ [⟨[97, 98, 99], false⟩] (by decide)).mpr fun p x he => by
    have hle := (he.common.longest [97, 98] (by decide)).length_le
    have hlt := he.first.length_le
    rw [length_append] at hlt
    exact Nat.not_lt.mpr hle hlt

/-- "ab" after "abc": with the word "a" the whole of "abc" is inserted. -/
theorem extend_not_exact : ¬ ∃ new, IsCommon [[97, 98, 99], [97, 98]] ([97] ++ new) ∧
    extend [97] [⟨[97, 98, 99], false⟩, ⟨[97, 98], false⟩] = new ++ [] := by
  rintro ⟨new, hnew, heq⟩
  have hle := (hnew.common [97, 98] (by simp)).length_le
  have hext : extend [97] [⟨[97, 98, 99], false⟩, ⟨[97, 98], false⟩] = [98, 99] := by decide +kernel
  rw [hext, append_nil] at heq
  simp [← heq] at hle

end Xv6Wish
