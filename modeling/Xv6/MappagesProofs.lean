import Mathlib.Algebra.Group.Fin.Basic
import Mathlib.Order.Fin.Basic
import Xv6.GrowprocProofs

/-!
# `vm.c` — `mappages` over a range

The loop of `mappages` with sums of 32 bits: it stops at the last page, so that a range may end at the top of the
address space, as that of the devices does. The pages of the range get their entries or a page table was not to be
had, and no other page changes.
-/

namespace Xv6Vm

open Option

/-- An address that is rounded down to a page. -/
abbrev Page := Fin 1048576

def Page.addr (k : Page) : Nat := k * PGSIZE

/-- `PGROUNDDOWN` of a sum of 32 bits. -/
def pageOf (a : Nat) : Page := Fin.ofNat _ (a / PGSIZE)

theorem Page.sub_succ_lt {a last : Page} (h : a ≠ last) : (last - (a + 1)).val < (last - a).val := by
  have hv : a.val ≠ last.val := fun he => h (Fin.ext he)
  simp only [Fin.sub_def, Fin.add_def]
  have h1 : (1 : Page).val = 1 := rfl
  omega

theorem Page.val_succ {k : Page} (h : k.val + 1 < 1048576) : (k + 1).val = k.val + 1 := by
  rw [Fin.val_add, Fin.val_one, Nat.mod_eq_of_lt h]

/-- The loop of `mappages` from the page `a` on. -/
def mappagesLoop32 (table : Nat → Option Nat) (perm : Nat) (last a pa : Page) (vm : Vm) : Except String (Int × Vm) :=
  match walkpgdir vm a.addr true (table a.addr) with
  | (false, vm) => .ok (-1, vm)
  | (true, vm) =>
    if (vm.pte a.addr).isSome then .error "remap"
    else
      let vm := vm.setPte a.addr (some ⟨pa.addr, perm⟩)
      if h : a = last then .ok (0, vm) else mappagesLoop32 table perm last (a + 1) (pa + 1) vm
termination_by (last - a).val
decreasing_by exact Page.sub_succ_lt h

def mappages32 (table : Nat → Option Nat) (vm : Vm) (va size : Nat) (pa : Page) (perm : Nat) :
    Except String (Int × Vm) :=
  mappagesLoop32 table perm (pageOf (va + size - 1)) (pageOf va) pa vm

/-- No page holds two page tables. -/
def Apart (vm : Vm) : Prop :=
  ∀ c d q, vm.tablePage c = some q → vm.tablePage d = some q → c = d

/-- `kalloc` hands out for the pages from `a` on what is not a page table yet, and each page once. -/
structure Serves (table : Nat → Option Nat) (a : Page) (vm : Vm) : Prop where
  unused : ∀ k ≥ a, ∀ d q, vm.tablePage d = some q → table k.addr ≠ some q
  once : ∀ j k : Page, ∀ q, table j.addr = some q → table k.addr = some q → j = k

variable {table : Nat → Option Nat} {perm : Nat} {last a pa : Page} {e : Pte} {vm vm' : Vm}

/-- Each page table was there, or is the one that the page has got. -/
theorem Entered.tablePage_some {d q : Nat} (he : Entered table a e vm vm') (hd : vm'.tablePage d = some q) :
    vm.tablePage d = some q ∨ d = a / 1024 ∧ table a.addr = some q := by
  rw [he.tables] at hd
  split_ifs at hd with h
  · exact (or_eq_some_iff.mp hd).imp id fun hq => ⟨h, hq.2⟩
  · exact .inl hd

theorem Entered.tablePage_none {d : Nat} (he : Entered table a e vm vm') (hd : vm'.tablePage d = none) :
    vm.tablePage d = none := by
  rw [he.tables] at hd
  split_ifs at hd
  · exact (or_eq_none_iff.mp hd).1
  · exact hd

theorem Serves.next (h : Serves table a vm) (he : Entered table a e vm vm') (hs : a < a + 1) :
    Serves table (a + 1) vm' := by
  refine ⟨fun k hk d q hd hq => ?_, h.once⟩
  rcases he.tablePage_some hd with hu | ⟨-, ha⟩
  · exact h.unused k (hs.le.trans hk) d q hu hq
  · exact (hs.trans_le hk).ne (h.once a k _ ha hq)

theorem Apart.entered (h : Apart vm) (hs : Serves table a vm) (he : Entered table a e vm vm') : Apart vm' := by
  intro c d q hc hd
  rcases he.tablePage_some hc with hc | ⟨hc, hq⟩ <;> rcases he.tablePage_some hd with hd | ⟨hd, hq'⟩
  · exact h c d q hc hd
  · exact absurd hq' (hs.unused a le_rfl c q hc)
  · exact absurd hq (hs.unused a le_rfl d q hd)
  · rw [hc, hd]

/-- Where nothing wraps it is the loop over the addresses. -/
theorem mappagesLoop32_eq {m : Nat} (hm : a.val + m = last.val) (hpa : pa.val + m < 1048576) :
    mappagesLoop32 table perm last a pa vm = mappagesLoop table perm (m + 1) a.addr pa.addr vm := by
  have hlast := last.isLt
  induction m generalizing a pa vm with
  | zero =>
    obtain rfl : a = last := Fin.ext hm
    rw [mappagesLoop32, mappagesLoop]
    rcases walkpgdir vm a.addr true (table a.addr) with ⟨_ | _, vm₁⟩
    · rfl
    · simp only [dite_true, mappagesLoop]
  | succ m ih =>
    have hne : a ≠ last := by
      rintro rfl
      omega
    have ha := @Page.val_succ a (by omega)
    have hp := @Page.val_succ pa (by omega)
    have hstep : ∀ k : Page, (k + 1).val = k.val + 1 → k.addr + PGSIZE = (k + 1).addr := fun k hk => by
      rw [Page.addr, Page.addr, hk, Nat.succ_mul]
    rw [mappagesLoop32, mappagesLoop, hstep a ha, hstep pa hp]
    rcases walkpgdir vm a.addr true (table a.addr) with ⟨_ | _, vm₁⟩
    · rfl
    · simp only [dif_neg hne, ih (by omega : (a + 1).val + m = last.val) (by omega : (pa + 1).val + m < 1048576)]

theorem mappages32_eq {va size : Nat} (hsize : 0 < size) (hva : va + size ≤ 2 ^ 32)
    (hpa : pa.addr + size ≤ 2 ^ 32 - PGSIZE) :
    mappages32 table vm va size pa perm = mappages table vm va size pa.addr perm := by
  have hlast : (pageOf (va + size - 1)).val = (va + size - 1) / PGSIZE := Nat.mod_eq_of_lt (by unfold PGSIZE; omega)
  have hfirst : (pageOf va).val = va / PGSIZE := Nat.mod_eq_of_lt (by unfold PGSIZE; omega)
  have hpages : (PGROUNDDOWN (va + size - 1) - PGROUNDDOWN va) / PGSIZE = (va + size - 1) / PGSIZE - va / PGSIZE := by
    rw [PGROUNDDOWN, PGROUNDDOWN, ← Nat.sub_mul, Nat.mul_div_cancel _ (by decide)]
  have haddr : (pageOf va).addr = PGROUNDDOWN va := by rw [Page.addr, hfirst, PGROUNDDOWN]
  rw [mappages, hpages, ← haddr]
  unfold Page.addr at hpa
  unfold PGSIZE at *
  exact mappagesLoop32_eq (by omega) (by omega)

/-- What the loop has done when it returns `r`. -/
structure Ranged (table : Nat → Option Nat) (perm : Nat) (last a pa : Page) (vm : Vm) (r : Int) (vm' : Vm) : Prop where
  result : (r = 0 ∧ ∀ k, a ≤ k → k ≤ last → vm'.page k = some ⟨(pa + (k - a)).addr, perm⟩) ∨
    r = -1 ∧ ∃ k, a ≤ k ∧ k ≤ last ∧ vm.tablePage (k / 1024) = none ∧ table k.addr = none
  other : ∀ k, ¬ (a ≤ k ∧ k ≤ last) → vm'.page k = vm.page k
  apart : Apart vm → Apart vm'

theorem mappagesLoop32_spec (hle : a ≤ last) (hn : ∀ k, a ≤ k → k ≤ last → vm.page k = none) (hs : Serves table a vm) :
    ∃ r vm', mappagesLoop32 table perm last a pa vm = .ok (r, vm') ∧ Ranged table perm last a pa vm r vm' := by
  -- by induction over the pages that are left
  induction hm : (last - a).val using Nat.strong_induction_on generalizing a pa vm with
  | _ m ih =>
    rw [mappagesLoop32]
    rcases @walkpgdir_turn vm table a a.isLt (hn a le_rfl hle) with ⟨htab, hpage, hwalk⟩ | ⟨vm₀, hwalk, hnone, -, he⟩
    · exact ⟨-1, vm, by rw [Page.addr, hwalk], .inr ⟨rfl, a, le_rfl, hle, htab, hpage⟩, fun _ _ => rfl, id⟩
    have he := he ⟨pa.addr, perm⟩
    have hnot : ¬ (vm₀.pte (a * PGSIZE)).isSome = true := by
      rw [← Vm.page, hnone]
      rintro ⟨⟩
    rw [Page.addr, hwalk]
    simp only [if_neg hnot]
    set vm₁ := vm₀.setPte (a * PGSIZE) (some ⟨pa.addr, perm⟩)
    have hpage : ∀ j : Page, vm₁.page j = if j = a then some ⟨pa.addr, perm⟩ else vm.page j := fun j => by
      rw [he.page j j.isLt]
      simp only [Fin.ext_iff]
    split_ifs with hlast
    · refine ⟨0, vm₁, rfl, .inl ⟨rfl, fun k h1 h2 => ?_⟩, fun k hk => ?_, fun h => h.entered hs he⟩
      · obtain rfl : k = a := le_antisymm (hlast ▸ h2) h1
        rw [hpage, if_pos rfl, sub_self, add_zero]
      · rw [hpage, if_neg fun hka => hk ⟨hka.ge, hka.trans_le hle⟩]
    · have hlt : a < last := lt_of_le_of_ne hle hlast
      have hsucc : (a + 1).val = a.val + 1 := Page.val_succ (lt_of_le_of_lt hlt last.isLt)
      have hge : ∀ k, a + 1 ≤ k ↔ a < k := fun k => by
        rw [Fin.le_def, Fin.lt_def, hsucc]
        rfl
      have hs1 : a < a + 1 := (hge _).mp le_rfl
      have hfree : ∀ k, a + 1 ≤ k → k ≤ last → vm₁.page k = none := fun k h1 h2 => by
        rw [hpage, if_neg ((hge k).mp h1).ne']
        exact hn k (hs1.le.trans h1) h2
      obtain ⟨r, vm', hrun, hr⟩ := ih _ (hm ▸ Page.sub_succ_lt hlast) ((hge _).mpr hlt) hfree (hs.next he hs1) rfl
      refine ⟨r, vm', hrun, ?_, fun k hk => ?_, fun h => hr.apart (h.entered hs he)⟩
      · rcases hr.result with ⟨h0, hall⟩ | ⟨h1, k, hk, hkl, htab, hnp⟩
        · refine .inl ⟨h0, fun k h1 h2 => ?_⟩
          by_cases hka : k = a
          · have hout : ¬ (a + 1 ≤ k ∧ k ≤ last) := fun h => ((hge k).mp h.1).ne' hka
            rw [hr.other k hout, hpage, if_pos hka, hka, sub_self, add_zero]
          · have hak : a < k := lt_of_le_of_ne h1 (Ne.symm hka)
            rw [hall k ((hge k).mpr hak) h2]
            rw [sub_add_eq_sub_sub, add_add_sub_cancel]
        · exact .inr ⟨h1, k, hs1.le.trans hk, hkl, he.tablePage_none htab, hnp⟩
      · rw [hr.other k fun h => hk ⟨hs1.le.trans h.1, h.2⟩, hpage, if_neg fun hka => hk ⟨hka.ge, hka.trans_le hle⟩]

/-- **`mappages`** over a range that does not wrap and has no present page. -/
theorem mappages32_ranged (table : Nat → Option Nat) (vm : Vm) (va size perm : Nat) (pa : Page) (hsize : 0 < size)
    (hwrap : va + size ≤ 2 ^ 32) (hn : ∀ k, pageOf va ≤ k → k ≤ pageOf (va + size - 1) → vm.page k = none)
    (hs : Serves table (pageOf va) vm) : ∃ r vm', mappages32 table vm va size pa perm = .ok (r, vm') ∧
      Ranged table perm (pageOf (va + size - 1)) (pageOf va) pa vm r vm' := by
  refine mappagesLoop32_spec ?_ hn hs
  rw [Fin.le_def]
  simp only [pageOf, Fin.ofNat, PGSIZE]
  omega

/-- The range of the devices, in an empty page directory. -/
theorem mappages32_devices : ∃ r vm', mappages32 some ⟨fun _ => none, fun _ _ => 0, []⟩ 0xfe000000 0x2000000
    (pageOf 0xfe000000) PTE_W = .ok (r, vm') ∧ Ranged some PTE_W (pageOf 0xffffffff) (pageOf 0xfe000000) (pageOf 0xfe000000)
      ⟨fun _ => none, fun _ _ => 0, []⟩ r vm' :=
  mappages32_ranged some _ 0xfe000000 0x2000000 PTE_W _ (by decide) (by decide) (fun _ _ _ => rfl)
    ⟨nofun, fun j k q hj hk => Fin.ext (Nat.eq_of_mul_eq_mul_right (by decide : 0 < PGSIZE)
      (some_inj.mp (hj.trans hk.symm)))⟩

end Xv6Vm
