import Xv6.VmCodeProofs

/-! # `kalloc.c` — the free pages -/

namespace Xv6Kmem

open Function List Xv6Vm

/-- `kmem`, and the word at the start of each page. -/
structure Kmem where
  freelist : Option Nat
  next : Nat → Option Nat

def kfree (kend v : Nat) (m : Kmem) : Option Kmem :=
  if Allocatable kend v then some ⟨some v, update m.next v m.freelist⟩ else none

def kalloc (m : Kmem) : Option Nat × Kmem :=
  (m.freelist, m.freelist.elim m fun r => { m with freelist := m.next r })

/-- Runs that leave the pages of `l` free. Nobody frees a free page or writes to one. -/
inductive Run (kend : Nat) : Kmem → List Nat → Prop where
  | boot {next} : Run kend ⟨none, next⟩ []
  | kfree {m m' l v} (h : Run kend m l) (hv : v ∉ l) (hm : kfree kend v m = some m') : Run kend m' (v :: l)
  | kalloc {m l} (h : Run kend m l) : Run kend (kalloc m).2 l.tail
  | store {m l v w} (h : Run kend m l) (hv : v ∉ l) : Run kend { m with next := update m.next v w } l

/-- **`kalloc` returns the page freed last** of those that are free, or 0 if none is. -/
theorem kalloc_pops {kend m l} (h : Run kend m l) :
    (kalloc m).1 = l[0]? ∧ l.Nodup ∧ ∀ i u, l[i]? = some u → m.next u = l[i + 1]? := by
  induction h with
  | boot => exact ⟨rfl, nodup_nil, by simp⟩
  | kfree _ hv hm ih =>
    obtain ⟨-, ⟨⟩⟩ := Option.ite_none_right_eq_some.mp hm
    refine ⟨rfl, nodup_cons.mpr ⟨hv, ih.2.1⟩, fun i u hu => ?_⟩
    cases i with
    | zero => cases hu; exact (update_self ..).trans ih.1
    | succ i => grind [update_apply]
  | @kalloc m l _ ih =>
    cases l with
    | nil => grind [kalloc]
    | cons r l => exact ⟨by grind [kalloc], ih.2.1.tail, by grind [kalloc]⟩
  | store _ hv ih => exact ⟨ih.1, ih.2.1, by grind [update_apply]⟩

/-- Two pages are freed and taken again, the last one first. -/
theorem kalloc_pops_two : ∃ m₁ m₂, kfree 4096 4096 ⟨none, fun _ => none⟩ = some m₁ ∧ kfree 4096 8192 m₁ = some m₂ ∧
    (kalloc m₂).1 = some 8192 ∧ (kalloc (kalloc m₂).2).1 = some 4096 := by
  have h₁ : kfree 4096 4096 ⟨none, fun _ => none⟩ = some _ := if_pos (by decide)
  have h₂ : ∀ m, kfree 4096 8192 m = some ⟨some 8192, update m.next 8192 m.freelist⟩ := fun _ => if_pos (by decide)
  have hrun := Run.kfree (.kfree .boot not_mem_nil h₁) (by decide) (h₂ _)
  exact ⟨_, _, h₁, h₂ _, (kalloc_pops hrun).1, (kalloc_pops hrun.kalloc).1⟩

end Xv6Kmem
