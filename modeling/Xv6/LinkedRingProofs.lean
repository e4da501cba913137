import Mathlib.Data.List.Nodup

/-!
# Circular doubly linked lists

A ring is a sentinel and any number of cells, with two link functions `next` and `prev`. The
sentinel is `none`. `Seg` says that following `next` from `x` visits the cells of a list and
arrives at `y`, and that `prev` leads back along the same way; a ring is a segment from the
sentinel to itself. The operations are the assignments by which C code unlinks a cell and puts
it behind the sentinel.
-/

namespace LinkedRing

open Function List Option

variable {β : Type}

/-- `next` leads from `x` over the cells of the list to `y`, and `prev` back. -/
def Seg (next prev : Option β → Option β) : Option β → List β → Option β → Prop
  | x, [], y => next x = y ∧ prev y = x
  | x, b :: l, y => next x = some b ∧ prev (some b) = x ∧ Seg next prev (some b) l y

/-- The cells of `order` in the order of `next`, and in the opposite order of `prev`. -/
structure Ring (next prev : Option β → Option β) (order : List β) : Prop where
  seg : Seg next prev none order none
  nodup : order.Nodup

section Seg

variable {next prev next' prev' : Option β → Option β} {x y z : Option β} {l l1 l2 : List β} {b : β}

theorem seg_append {l1 : List β} {x : Option β} :
    Seg next prev x (l1 ++ b :: l2) y ↔ Seg next prev x l1 (some b) ∧ Seg next prev (some b) l2 y := by
  induction l1 generalizing x with
  | nil =>
    constructor
    · rintro ⟨h1, h2, h3⟩
      exact ⟨⟨h1, h2⟩, h3⟩
    · rintro ⟨⟨h1, h2⟩, h3⟩
      exact ⟨h1, h2, h3⟩
  | cons a l ih =>
    constructor
    · rintro ⟨h1, h2, h3⟩
      exact ⟨⟨h1, h2, (ih.mp h3).1⟩, (ih.mp h3).2⟩
    · rintro ⟨⟨h1, h2, h3⟩, h4⟩
      exact ⟨h1, h2, ih.mpr ⟨h3, h4⟩⟩

/-- Links that are not on the way do not matter. -/
theorem seg_congr : ∀ {l : List β} {x : Option β}, Seg next prev x l y → next' x = next x →
    prev' y = prev y → (∀ a ∈ l, next' (some a) = next (some a) ∧ prev' (some a) = prev (some a)) →
    Seg next' prev' x l y := by
  intro l
  induction l with
  | nil =>
    rintro x ⟨h1, h2⟩ hx hy -
    exact ⟨hx.trans h1, hy.trans h2⟩
  | cons a l ih =>
    rintro x ⟨h1, h2, h3⟩ hx hy hl
    obtain ⟨ha1, ha2⟩ := hl a mem_cons_self
    exact ⟨hx.trans h1, ha2.trans h2, ih h3 ha1 hy fun c hc => hl c (mem_cons_of_mem a hc)⟩

/-- The first cell, or the end. -/
theorem seg_next (h : Seg next prev x l none) : next x = l.head? := by
  cases l with
  | nil => exact h.1
  | cons b l => exact h.1

/-- The last cell, or the start. -/
theorem seg_prev : ∀ {l : List β} {x : Option β}, Seg next prev x l y → prev y = (l.getLast?).or x := by
  intro l
  induction l with
  | nil => exact fun h => h.2
  | cons b l ih =>
    rintro x ⟨-, -, h⟩
    rw [ih h]
    cases l with
    | nil => rfl
    | cons c l => rw [getLast?_cons_cons, getLast?_cons]; rfl

variable [DecidableEq β]

/-- The segment that starts at `x` starts at `z` instead. -/
theorem seg_restart (h : Seg next prev x l y) (hnd : l.Nodup) (hy : ∀ a ∈ l, y ≠ some a)
    (hz : next' z = next x) (hprev : prev' = update prev (next x) z)
    (hl : ∀ a ∈ l, next' (some a) = next (some a)) : Seg next' prev' z l y := by
  subst hprev
  cases l with
  | nil =>
    obtain ⟨h1, -⟩ := h
    exact ⟨hz.trans h1, by rw [h1, update_self]⟩
  | cons c l =>
    obtain ⟨h1, -, h3⟩ := h
    obtain ⟨hc, hnd'⟩ := nodup_cons.mp hnd
    refine ⟨hz.trans h1, by rw [h1, update_self], ?_⟩
    refine seg_congr h3 (hl c mem_cons_self) ?_ fun a ha => ⟨hl a (mem_cons_of_mem c ha), ?_⟩
    · rw [h1, update_of_ne (hy c mem_cons_self)]
    · rw [h1, update_of_ne]
      intro heq
      exact hc (some.inj heq ▸ ha)

end Seg

section Ring

variable {next prev : Option β → Option β} {order pre post : List β} {b : β}

theorem Ring.next_head (h : Ring next prev order) : next none = order.head? := seg_next h.seg

theorem Ring.next_cell (h : Ring next prev (pre ++ b :: post)) : next (some b) = post.head? :=
  seg_next (seg_append.mp h.seg).2

/-- A ring without cells. -/
theorem ring_nil : Ring (β := β) (fun _ => none) (fun _ => none) [] := ⟨⟨rfl, rfl⟩, nodup_nil⟩

variable [DecidableEq β]

/-- `b->next = head.next; b->prev = &head; head.next->prev = b; head.next = b` -/
def push (b : β) (s : (Option β → Option β) × (Option β → Option β)) :
    (Option β → Option β) × (Option β → Option β) :=
  let next := update s.1 (some b) (s.1 none)
  let prev := update s.2 (some b) none
  let prev := update prev (next none) (some b)
  (update next none (some b), prev)

/-- `b->next->prev = b->prev; b->prev->next = b->next` -/
def unlink (b : β) (s : (Option β → Option β) × (Option β → Option β)) :
    (Option β → Option β) × (Option β → Option β) :=
  let prev := update s.2 (s.1 (some b)) (s.2 (some b))
  (update s.1 (prev (some b)) (s.1 (some b)), prev)

theorem ring_push (h : Ring next prev order) (hb : b ∉ order) :
    Ring (push b (next, prev)).1 (push b (next, prev)).2 (b :: order) := by
  have hnone : (update next (some b) (next none)) none = next none :=
    update_of_ne (by nofun) _ _
  have hne : some b ≠ next none := by
    rw [h.next_head]
    intro heq
    exact hb (mem_of_mem_head? heq.symm)
  refine ⟨⟨?_, ?_, ?_⟩, nodup_cons.mpr ⟨hb, h.nodup⟩⟩
  · show update (update next (some b) (next none)) none (some b) none = some b
    exact update_self none _ _
  · show update (update prev (some b) none) _ _ (some b) = none
    rw [hnone, update_of_ne hne, update_self]
  · have hseg : Seg next (update prev (some b) none) none order none := by
      refine seg_congr h.seg rfl (update_of_ne (by nofun) _ _) fun a ha => ⟨rfl, ?_⟩
      refine update_of_ne ?_ _ _
      rintro heq
      exact hb (some.inj heq ▸ ha)
    refine seg_restart hseg h.nodup (fun a _ => by nofun) ?_ ?_ fun a ha => ?_
    · show update (update next (some b) (next none)) none (some b) (some b) = _
      rw [update_of_ne (by nofun), update_self]
    · show update (update prev (some b) none) _ _ = _
      rw [hnone]
    · show update (update next (some b) (next none)) none (some b) (some a) = _
      have hab : (some a : Option β) ≠ some b := fun heq => hb (some.inj heq ▸ ha)
      rw [update_of_ne (by nofun), update_of_ne hab]

theorem ring_unlink (h : Ring next prev (pre ++ b :: post)) :
    Ring (unlink b (next, prev)).1 (unlink b (next, prev)).2 (pre ++ post) := by
  obtain ⟨hpre, hpost⟩ := seg_append.mp h.seg
  have hnd := h.nodup
  rw [nodup_append] at hnd
  obtain ⟨hnd1, hnd2, hdisj⟩ := hnd
  obtain ⟨hb2, hnd2'⟩ := nodup_cons.mp hnd2
  have hb1 : b ∉ pre := fun hb => hdisj b hb b mem_cons_self rfl
  have hnb : some b ≠ next (some b) := by
    rw [h.next_cell]
    intro heq
    exact hb2 (mem_of_mem_head? heq.symm)
  have hprevb : (update prev (next (some b)) (prev (some b))) (some b) = prev (some b) :=
    update_of_ne hnb _ _
  -- the cell in front of `b` goes on to the one behind it
  have hnext : (unlink b (next, prev)).1 = update next (prev (some b)) (next (some b)) := by
    show update next (update prev _ _ (some b)) _ = _
    rw [hprevb]
  have hprev : (unlink b (next, prev)).2 = update prev (next (some b)) (prev (some b)) := rfl
  rw [hnext, hprev]
  have hlast : prev (some b) = pre.getLast? := by
    rw [seg_prev hpre, or_none]
  have hpost' : Seg (update next (prev (some b)) (next (some b)))
      (update prev (next (some b)) (prev (some b))) (prev (some b)) post none := by
    refine seg_restart hpost hnd2' (fun a _ => by nofun) (update_self ..) rfl fun a ha => ?_
    refine update_of_ne ?_ _ _
    rw [hlast]
    intro heq
    exact hdisj a (mem_of_getLast? heq.symm) a (mem_cons_of_mem b ha) rfl
  refine ⟨?_, nodup_append.mpr ⟨hnd1, hnd2', fun a ha c hc =>
    hdisj a ha c (mem_cons_of_mem b hc)⟩⟩
  rcases eq_nil_or_concat pre with rfl | ⟨pre', a, rfl⟩
  · rw [hlast] at hpost' ⊢
    exact hpost'
  · have ha : prev (some b) = some a := by rw [hlast, concat_eq_append, getLast?_append]; rfl
    rw [concat_eq_append] at hpre hnd1 hdisj ⊢
    rw [append_assoc]
    refine seg_append.mpr ⟨?_, ha ▸ hpost'⟩
    have hne : ∀ c ∈ pre' ++ [a], some c ≠ next (some b) := by
      intro c hc heq
      rw [h.next_cell] at heq
      exact hdisj c hc c (mem_cons_of_mem b (mem_of_mem_head? heq.symm)) rfl
    refine seg_congr (seg_append.mp hpre).1 ?_ ?_ fun c hc => ⟨?_, ?_⟩
    · exact update_of_ne (by rw [ha]; nofun) _ _
    · exact update_of_ne (hne a (mem_append_right _ mem_cons_self)) _ _
    · refine update_of_ne ?_ _ _
      rw [ha]
      intro heq
      have hca : c = a := some.inj heq
      rw [hca] at hc
      exact (nodup_append.mp hnd1).2.2 a hc a mem_cons_self rfl
    · exact update_of_ne (hne c (mem_append_left _ hc)) _ _

/-- **A cell is moved to the front.** -/
theorem ring_moveFront (h : Ring next prev (pre ++ b :: post)) :
    Ring (push b (unlink b (next, prev))).1 (push b (unlink b (next, prev))).2
      (b :: (pre ++ post)) := by
  refine ring_push (ring_unlink h) ?_
  have hnd := nodup_middle.mp h.nodup
  exact (nodup_cons.mp hnd).1

/-- The ring made by putting cells behind the sentinel one after the other. -/
theorem ring_pushes : ∀ {l order : List β} {next prev : Option β → Option β},
    Ring next prev order → l.Nodup → (∀ a ∈ l, a ∉ order) →
    Ring (l.foldl (fun s b => push b s) (next, prev)).1 (l.foldl (fun s b => push b s) (next, prev)).2
      (l.reverse ++ order) := by
  intro l
  induction l with
  | nil => exact fun h _ _ => h
  | cons a l ih =>
    intro order next prev h hnd hout
    obtain ⟨ha, hnd'⟩ := nodup_cons.mp hnd
    have hpush := ring_push h (hout a mem_cons_self)
    have hrest := ih hpush hnd' fun c hc hmem => by
      rcases mem_cons.mp hmem with rfl | hmem'
      · exact ha hc
      · exact hout c (mem_cons_of_mem a hc) hmem'
    rw [reverse_cons, append_assoc]
    exact hrest

end Ring

end LinkedRing
