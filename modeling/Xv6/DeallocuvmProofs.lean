import Xv6.VmCodeProofs

/-!
# `vm.c` — which pages `deallocuvm` releases

The loop of `deallocuvm` moves by one page, or by the 1024 pages of a page table where the directory entry is
absent. A jump from a page that is not the first of its table lands in the middle of the next one, so that the
pages before that index are passed over. `Reached` says which pages the loop gets to; after the first page
table that exists every jump starts at the first page of a table, and nothing more is lost.

`deallocuvm_exact_iff` compares this with what the function is for: it releases the range exactly if no page of
the range lies in the first existing page table below the index the loop starts from.
-/

namespace Xv6Vm

open Function List

variable {kend oldsz newsz : Nat} {vm vm' : Vm}

/-- The loop of `deallocuvm` that is at page `k` gets to page `j ≥ k`: it keeps its index within the page
    tables until it meets one that exists. -/
def Reached (vm : Vm) (k j : Nat) : Prop :=
  k % 1024 ≤ j % 1024 ∨ ∃ d < j / 1024, k / 1024 ≤ d ∧ (vm.pgdir d).isSome = true

instance (vm : Vm) (k j : Nat) : Decidable (Reached vm k j) :=
  inferInstanceAs (Decidable (_ ∨ _))

/-- The physical pages behind the pages below `hi` that satisfy `P`, in the order of their addresses. -/
def heldPages (vm : Vm) (P : Nat → Prop) [DecidablePred P] (hi : Nat) : List Nat :=
  (range hi).filterMap fun j => if P j then (vm.page j).map Pte.pa else none

/-- Every page below `sz` that is present stands in memory of the allocator. -/
def Backed (kend sz : Nat) (vm : Vm) : Prop :=
  ∀ k < pages sz, ∀ e, vm.page k = some e → e.pa ≠ 0 ∧ Allocatable kend e.pa

/-- What the pages below `hi` that satisfy `P` are afterwards: unmapped and given back, once each. -/
structure Released (vm vm' : Vm) (P : Nat → Prop) [DecidablePred P] (hi : Nat) : Prop where
  page : ∀ j < 1048576, vm'.page j = if j < hi ∧ P j then none else vm.page j
  tables : ∀ d, (vm'.pgdir d).isSome = (vm.pgdir d).isSome
  freed : vm'.freed = vm.freed ++ heldPages vm P hi
  mem : ∀ pa, pa ∉ heldPages vm P hi → vm'.mem pa = vm.mem pa

/-! ## The loop -/

theorem reached_congr {k j : Nat} (h : ∀ d, (vm'.pgdir d).isSome = (vm.pgdir d).isSome) :
    Reached vm' k j ↔ Reached vm k j := by
  simp only [Reached, h]

/-- Without its page table the loop goes on one table later: of the pages on the way none is reached and
    present. -/
theorem reached_skip {k j : Nat} (hk : (vm.pgdir (k / 1024)).isSome = false) (hj : vm.page j ≠ none)
    (hlt : j < 1048576) : k ≤ j ∧ Reached vm k j ↔ k + 1024 ≤ j ∧ Reached vm (k + 1024) j := by
  have htab : (vm.pgdir (j / 1024)).isSome = true := by
    by_contra hn
    refine hj (Vm.page_eq_none_of_not_tabled ?_)
    rw [Vm.tabled, Nat.mod_eq_of_lt (by omega)]
    simpa using hn
  have hne : j / 1024 ≠ k / 1024 := by
    intro h
    rw [h, hk] at htab
    exact Bool.noConfusion htab
  constructor
  · rintro ⟨hle, hr | ⟨d, hd, hdk, hs⟩⟩
    · exact ⟨by omega, .inl (by omega)⟩
    · have hdne : d ≠ k / 1024 := by
        intro h
        rw [h, hk] at hs
        exact Bool.noConfusion hs
      exact ⟨by omega, .inr ⟨d, hd, by omega, hs⟩⟩
  · rintro ⟨hle, hr | ⟨d, hd, hdk, hs⟩⟩
    · exact ⟨by omega, .inl (by omega)⟩
    · exact ⟨by omega, .inr ⟨d, hd, by omega, hs⟩⟩

/-- In a page table that exists the loop gets to every later page. -/
theorem reached_succ {k j : Nat} (hk : (vm.pgdir (k / 1024)).isSome = true) (hlt : k < j) :
    Reached vm k j ∧ Reached vm (k + 1) j := by
  constructor
  · by_cases hd : j / 1024 = k / 1024
    · exact .inl (by omega)
    · exact .inr ⟨k / 1024, by omega, le_refl _, hk⟩
  · by_cases hd : (k + 1) / 1024 = k / 1024
    · by_cases hj : j / 1024 = k / 1024
      · exact .inl (by omega)
      · exact .inr ⟨k / 1024, by omega, by omega, hk⟩
    · exact .inl (by omega)

theorem heldPages_congr {P Q : Nat → Prop} [DecidablePred P] [DecidablePred Q] {hi : Nat}
    (hpage : ∀ j < hi, Q j → vm'.page j = vm.page j)
    (h : ∀ j < hi, vm.page j ≠ none → (P j ↔ Q j)) : heldPages vm P hi = heldPages vm' Q hi := by
  refine filterMap_congr fun j hj => ?_
  have hlt : j < hi := mem_range.mp hj
  by_cases hn : vm.page j = none
  · by_cases hq : Q j
    · rw [if_pos hq, hpage j hlt hq, hn]
      simp
    · rw [if_neg hq, hn]
      simp
  · by_cases hq : Q j
    · rw [if_pos hq, if_pos ((h j hlt hn).mpr hq), hpage j hlt hq]
    · rw [if_neg hq, if_neg (fun hp => hq ((h j hlt hn).mp hp))]

/-- A list over a range whose first value stands at `k`. -/
theorem filterMap_range_first {β : Type} {f g : Nat → Option β} {x : β} {k n : Nat} (hk : k < n)
    (hbefore : ∀ j < k, f j = none) (hx : f k = some x) (hg : ∀ j ≤ k, g j = none)
    (hafter : ∀ j, k < j → f j = g j) : (range n).filterMap f = x :: (range n).filterMap g := by
  induction n with
  | zero => exact absurd hk (Nat.not_lt_zero k)
  | succ n ih =>
    simp only [range_succ, filterMap_append, filterMap_cons, filterMap_nil]
    rcases lt_or_eq_of_le (Nat.lt_succ_iff.mp hk) with hlt | heq
    · rw [ih hlt, hafter n hlt]
      simp
    · subst heq
      have hf : (range k).filterMap f = [] :=
        filterMap_eq_nil_iff.mpr fun j hj => hbefore j (mem_range.mp hj)
      have hg' : (range k).filterMap g = [] :=
        filterMap_eq_nil_iff.mpr fun j hj => hg j (le_of_lt (mem_range.mp hj))
      rw [hf, hg', hx, hg k (le_refl k)]
      simp

/-- The pages from `k` on that the loop gets to. -/
abbrev From (vm : Vm) (k j : Nat) : Prop :=
  k ≤ j ∧ Reached vm k j

theorem heldPages_cons {k hi : Nat} {e : Pte} (hk : k < hi) (htab : (vm.pgdir (k / 1024)).isSome = true)
    (he : vm.page k = some e) (hpage : ∀ j < 1048576, vm'.page j = if j = k then none else vm.page j)
    (htabs : ∀ d, (vm'.pgdir d).isSome = (vm.pgdir d).isSome) (hhi : hi ≤ 1048576) :
    heldPages vm (From vm k) hi = e.pa :: heldPages vm' (From vm' (k + 1)) hi := by
  have hcut : heldPages vm' (From vm' (k + 1)) hi = heldPages vm (From vm (k + 1)) hi := by
    refine heldPages_congr (fun j hj hq => ?_) (fun j hj _ => and_congr_right fun _ => reached_congr htabs)
    rw [hpage j (by omega), if_neg (by have := hq.1; omega)]
  rw [hcut]
  refine filterMap_range_first hk (fun j hj => ?_) ?_ (fun j hj => ?_) (fun j hj => ?_)
  · exact if_neg fun h => absurd h.1 (by omega)
  · rw [if_pos ⟨le_refl k, .inl (le_refl _)⟩, he]
    rfl
  · exact if_neg fun h => absurd h.1 (by omega)
  · have hr := reached_succ htab hj
    rw [if_pos ⟨by omega, hr.1⟩, if_pos ⟨by omega, hr.2⟩]

/-- The loop at a page whose table is absent. -/
theorem Released.skip {k hi : Nat} (hhi : hi ≤ 524288) (hk : (vm.pgdir (k / 1024)).isSome = false)
    (h : Released vm vm' (From vm (k + 1024)) hi) : Released vm vm' (From vm k) hi := by
  have hsame : heldPages vm (From vm k) hi = heldPages vm (From vm (k + 1024)) hi :=
    heldPages_congr (fun _ _ _ => rfl) fun j hj hn => reached_skip hk hn (by omega)
  refine ⟨fun j hj => ?_, h.tables, by rw [hsame]; exact h.freed, by rw [hsame]; exact h.mem⟩
  rw [h.page j hj]
  by_cases hn : vm.page j = none
  · simp [hn]
  · by_cases hlt : j < hi
    · simp only [hlt, true_and, From, reached_skip hk hn hj]
    · simp [hlt]

/-- The loop at a page that is not present, in a table that exists. -/
theorem Released.pass {k hi : Nat} (hk : (vm.pgdir (k / 1024)).isSome = true) (hn : vm.page k = none)
    (h : Released vm vm' (From vm (k + 1)) hi) : Released vm vm' (From vm k) hi := by
  have hiff : ∀ j, vm.page j ≠ none → (From vm k j ↔ From vm (k + 1) j) := by
    intro j hj
    rcases lt_trichotomy k j with hlt | heq | hgt
    · have hr := reached_succ hk hlt
      exact ⟨fun _ => ⟨hlt, hr.2⟩, fun _ => ⟨by omega, hr.1⟩⟩
    · exact absurd (heq ▸ hn) hj
    · exact ⟨fun hf => absurd hf.1 (by omega), fun hf => absurd hf.1 (by omega)⟩
  have hsame : heldPages vm (From vm k) hi = heldPages vm (From vm (k + 1)) hi :=
    heldPages_congr (fun _ _ _ => rfl) fun j _ hj => hiff j hj
  refine ⟨fun j hj => ?_, h.tables, by rw [hsame]; exact h.freed, by rw [hsame]; exact h.mem⟩
  rw [h.page j hj]
  by_cases hj : vm.page j = none
  · simp [hj]
  · simp only [hiff j hj]

/-- The loop at a page that is present: it is given back first. -/
theorem Released.free {k hi : Nat} {e : Pte} {vm₁ : Vm} (hhi : hi ≤ 524288) (hk : k < hi)
    (htab : (vm.pgdir (k / 1024)).isSome = true) (he : vm.page k = some e)
    (hpage : ∀ j < 1048576, vm₁.page j = if j = k then none else vm.page j)
    (htabs : ∀ d, (vm₁.pgdir d).isSome = (vm.pgdir d).isSome) (hfreed : vm₁.freed = vm.freed ++ [e.pa])
    (hmem : ∀ pa ≠ e.pa, vm₁.mem pa = vm.mem pa) (h : Released vm₁ vm' (From vm₁ (k + 1)) hi) :
    Released vm vm' (From vm k) hi := by
  have hheld := heldPages_cons hk htab he hpage htabs (by omega : hi ≤ 1048576)
  refine ⟨fun j hj => ?_, fun d => (h.tables d).trans (htabs d), ?_, fun pa hpa => ?_⟩
  · rw [h.page j hj, hpage j hj]
    rcases lt_trichotomy k j with hlt | heq | hgt
    · have hr := reached_succ htab hlt
      have hr₁ : From vm₁ (k + 1) j := ⟨hlt, (reached_congr htabs).mpr hr.2⟩
      have hr₀ : From vm k j := ⟨by omega, hr.1⟩
      rw [if_neg (by omega : j ≠ k)]
      by_cases hj' : j < hi
      · rw [if_pos ⟨hj', hr₁⟩, if_pos ⟨hj', hr₀⟩]
      · rw [if_neg (fun hf => hj' hf.1), if_neg (fun hf => hj' hf.1)]
    · subst heq
      rw [if_pos rfl, ite_self, if_pos ⟨hk, le_refl k, .inl (le_refl _)⟩]
    · have hr₀ : ¬ From vm k j := fun hf => absurd hf.1 (by omega)
      have hr₁ : ¬ From vm₁ (k + 1) j := fun hf => absurd hf.1 (by omega)
      rw [if_neg (fun hf => hr₁ hf.2), if_neg (by omega), if_neg (fun hf => hr₀ hf.2)]
  · rw [h.freed, hfreed, hheld, append_assoc, singleton_append]
  · rw [hheld, mem_cons, not_or] at hpa
    rw [h.mem pa hpa.2, hmem pa hpa.1]

/-- `kfree` of the page behind page `k`, and `*pte = 0`. -/
def Vm.release (vm : Vm) (k pa : Nat) : Vm :=
  Vm.setPte { vm with mem := update vm.mem pa fun _ => 1, freed := vm.freed ++ [pa] }
    (k * PGSIZE) none

theorem page_release {k pa : Nat} (hk : k < 1048576) (htab : vm.tabled k = true) :
    ∀ j < 1048576, (vm.release k pa).page j = if j = k then none else vm.page j :=
  fun _ hj => Vm.page_setPte none hk hj htab

theorem tables_release (vm : Vm) (k pa : Nat) : ∀ d, ((vm.release k pa).pgdir d).isSome = (vm.pgdir d).isSome := by
  intro d
  simp only [Vm.release, Vm.setPte]
  split <;> simp

theorem Backed.release {k pa : Nat} (hold : oldsz ≤ KERNBASE) (hk : k < 1048576)
    (htab : vm.tabled k = true) (hb : Backed kend oldsz vm) : Backed kend oldsz (vm.release k pa) := by
  intro j hj e he
  have hhi : pages oldsz ≤ 524288 := pages_le_user hold
  rw [page_release hk htab j (by omega)] at he
  split_ifs at he
  exact hb j hj e he

/-- **What the loop of `deallocuvm` does**: it releases the pages it gets to. -/
theorem deallocuvmLoop_released (hold : oldsz ≤ KERNBASE) (k : Nat) (vm : Vm) (hb : Backed kend oldsz vm) :
    ∃ vm', deallocuvmLoop kend oldsz (k * PGSIZE) vm = .ok vm' ∧ Released vm vm' (From vm k) (pages oldsz) := by
  -- by the pages that are left
  induction hn : pages oldsz - k using Nat.strongRecOn generalizing k vm with
  | _ n ih =>
    have hhi : pages oldsz ≤ 524288 := pages_le_user hold
    rw [deallocuvmLoop]
    by_cases hlt : k * PGSIZE < oldsz
    · have hk : k < pages oldsz := lt_pages_iff.mpr hlt
      have hmod : k / 1024 % 1024 = k / 1024 := by omega
      rw [if_pos hlt]
      cases htab : vm.pgdir (k / 1024) with
      | none =>
        have hwalk : walkpgdir vm (k * PGSIZE) false none = (false, vm) := by
          simp [walkpgdir, hmod, htab]
        have haddr : k * PGSIZE + (NPTENTRIES - 1) * PGSIZE + PGSIZE = (k + 1024) * PGSIZE := by
          simp only [NPTENTRIES, PGSIZE]
          omega
        obtain ⟨vm', hrun, hrel⟩ := ih (pages oldsz - (k + 1024)) (by omega) (k + 1024) vm hb rfl
        refine ⟨vm', ?_, hrel.skip hhi (by rw [htab]; rfl)⟩
        rw [hwalk]
        rw [haddr]
        exact hrun
      | some t =>
        have hwalk : walkpgdir vm (k * PGSIZE) false none = (true, vm) := by
          simp [walkpgdir, hmod, htab]
        have hsome : (vm.pgdir (k / 1024)).isSome = true := by rw [htab]; rfl
        have haddr : k * PGSIZE + PGSIZE = (k + 1) * PGSIZE := by ring
        rw [hwalk]
        dsimp only
        cases he : vm.page k with
        | none =>
          have hpte : vm.pte (k * PGSIZE) = none := he
          obtain ⟨vm', hrun, hrel⟩ := ih (pages oldsz - (k + 1)) (by omega) (k + 1) vm hb rfl
          refine ⟨vm', ?_, hrel.pass hsome he⟩
          rw [hpte, haddr]
          exact hrun
        | some e =>
          have hpte : vm.pte (k * PGSIZE) = some e := he
          obtain ⟨hne, hall⟩ := hb k hk e he
          have htab' : vm.tabled k = true := by rw [Vm.tabled, hmod]; exact hsome
          obtain ⟨vm', hrun, hrel⟩ := ih (pages oldsz - (k + 1)) (by omega) (k + 1)
            (vm.release k e.pa) (hb.release hold (by omega) htab') rfl
          refine ⟨vm', ?_, Released.free hhi hk hsome he (page_release (by omega) htab')
            (tables_release vm k e.pa) rfl (fun pa hpa => update_of_ne hpa _ _) hrel⟩
          rw [hpte, haddr]
          dsimp only
          rw [if_neg hne, kfree, if_pos hall]
          exact hrun
    · rw [if_neg hlt]
      have hge : pages oldsz ≤ k := Nat.le_of_not_lt fun h => hlt (lt_pages_iff.mp h)
      have hnil : heldPages vm (From vm k) (pages oldsz) = [] := by
        refine filterMap_eq_nil_iff.mpr fun j hj => if_neg fun hf => ?_
        have := mem_range.mp hj
        exact absurd hf.1 (by omega)
      refine ⟨vm, rfl, fun j _ => ?_, fun _ => rfl, by rw [hnil, append_nil], fun _ _ => rfl⟩
      rw [if_neg]
      rintro ⟨hj, hf⟩
      exact absurd hf.1 (by omega)

/-- `deallocuvm` for a smaller size, with the pages its loop gets to. -/
theorem deallocuvm_released (hold : oldsz ≤ KERNBASE) (hlt : newsz < oldsz) (hb : Backed kend oldsz vm) :
    ∃ vm', deallocuvm kend oldsz newsz vm = .ok (newsz, vm') ∧
      Released vm vm' (From vm (pages newsz)) (pages oldsz) := by
  obtain ⟨vm', hrun, hrel⟩ := deallocuvmLoop_released hold (pages newsz) vm hb
  refine ⟨vm', ?_, hrel⟩
  rw [deallocuvm, if_neg (by omega), PGROUNDUP_eq (by omega), hrun]

/-! ## The range -/

/-- The page of `va` lies in `[PGROUNDUP(newsz), oldsz)`. -/
def InRange (newsz oldsz va : Nat) : Prop :=
  PGROUNDUP newsz ≤ PGROUNDDOWN va ∧ PGROUNDDOWN va < oldsz

/-- What `deallocuvm` is for: the pages of the range are unmapped and freed once each, every other mapping and
    every page table stays. -/
structure RangeReleased (newsz oldsz : Nat) (vm vm' : Vm) : Prop where
  gone : ∀ va < 2 ^ 32, InRange newsz oldsz va → vm'.pte va = none
  kept : ∀ va < 2 ^ 32, ¬ InRange newsz oldsz va → vm'.pte va = vm.pte va
  tables : ∀ d, (vm'.pgdir d).isSome = (vm.pgdir d).isSome
  freed : vm'.freed = vm.freed ++ heldPages vm (fun k => pages newsz ≤ k) (pages oldsz)

/-- `deallocuvm` returns, without a panic, what it has to return, and leaves what it has to leave. -/
def DeallocExact (kend oldsz newsz : Nat) (vm : Vm) : Prop :=
  ∃ r vm', deallocuvm kend oldsz newsz vm = .ok (r, vm') ∧
    if oldsz ≤ newsz then r = oldsz ∧ vm' = vm else r = newsz ∧ RangeReleased newsz oldsz vm vm'

/-- No page of the range is passed over: a present page with a smaller index in its table than the one the
    loop starts from has an existing page table between the start and its own. -/
def NonePassed (newsz oldsz : Nat) (vm : Vm) : Prop :=
  ∀ va, InRange newsz oldsz va → vm.pte va ≠ none → PTX va < PTX (PGROUNDUP newsz) →
    ∃ d < PDX va, PDX (PGROUNDUP newsz) ≤ d ∧ (vm.pgdir d).isSome = true

theorem inRange_iff {va : Nat} (hnew : newsz ≤ KERNBASE) :
    InRange newsz oldsz va ↔ pages newsz ≤ va / PGSIZE ∧ va / PGSIZE < pages oldsz := by
  rw [InRange, PGROUNDUP_eq hnew, PGROUNDDOWN, lt_pages_iff]
  exact and_congr_left fun _ => Nat.mul_le_mul_right_iff (by decide)

section

variable (hold : oldsz ≤ KERNBASE) (hlt : newsz < oldsz)
include hold hlt

/-- `NonePassed` by page numbers. -/
theorem nonePassed_iff : NonePassed newsz oldsz vm ↔
      ∀ k, pages newsz ≤ k → k < pages oldsz → vm.page k ≠ none → Reached vm (pages newsz) k := by
  have hhi : pages oldsz ≤ 524288 := pages_le_user hold
  have hlo : pages newsz ≤ pages oldsz := pages_mono (le_of_lt hlt)
  have hpdx : ∀ k < pages oldsz, PDX (k * PGSIZE) = k / 1024 := by
    intro k hk
    rw [PDX_page]
    omega
  have hstart : PDX (PGROUNDUP newsz) = pages newsz / 1024 := by
    rw [PGROUNDUP_eq (by omega), PDX_page]
    omega
  have hptx : PTX (PGROUNDUP newsz) = pages newsz % 1024 := by
    rw [PGROUNDUP_eq (by omega), PTX_page]
  constructor
  · intro h k hle hk hne
    by_cases hp : pages newsz % 1024 ≤ k % 1024
    · exact .inl hp
    · have hdiv : k * PGSIZE / PGSIZE = k := Nat.mul_div_cancel k (by decide)
      have hr : InRange newsz oldsz (k * PGSIZE) :=
        (inRange_iff (by omega)).mpr (by rw [hdiv]; exact ⟨hle, hk⟩)
      obtain ⟨d, hd, hds, hs⟩ := h (k * PGSIZE) hr hne (by rw [PTX_page, hptx]; omega)
      rw [hpdx k hk] at hd
      exact .inr ⟨d, hd, by omega, hs⟩
  · intro h va hr hne hp
    obtain ⟨hle, hk⟩ := (inRange_iff (by omega)).mp hr
    have hva : PDX va = va / PGSIZE / 1024 := by
      simp only [PDX, PGSIZE] at hk ⊢
      omega
    have hvp : PTX va = va / PGSIZE % 1024 := by
      simp only [PTX, PGSIZE]
    rw [vm.pte_eq_page va] at hne
    rcases h (va / PGSIZE) hle hk hne with hr | ⟨d, hd, hds, hs⟩
    · omega
    · exact ⟨d, by omega, by omega, hs⟩

/-- Where no page is passed over, the pages the loop gets to are the pages of the range. -/
theorem Released.range
    (h : Released vm vm' (From vm (pages newsz)) (pages oldsz)) (hnone : NonePassed newsz oldsz vm) :
    RangeReleased newsz oldsz vm vm' := by
  rw [nonePassed_iff hold hlt] at hnone
  have hpage : ∀ va < 2 ^ 32, vm'.pte va = if va / PGSIZE < pages oldsz ∧ From vm (pages newsz) (va / PGSIZE) then none
      else vm.pte va := by
    intro va hva
    rw [vm'.pte_eq_page, vm.pte_eq_page, h.page]
    simp only [PGSIZE]
    omega
  refine ⟨fun va hva hr => ?_, fun va hva hr => ?_, h.tables, ?_⟩
  · obtain ⟨hle, hk⟩ := (inRange_iff (by omega)).mp hr
    rw [hpage va hva]
    by_cases hn : vm.pte va = none
    · rw [hn, ite_self]
    · rw [vm.pte_eq_page] at hn
      rw [if_pos ⟨hk, hle, hnone _ hle hk hn⟩]
  · rw [hpage va hva, if_neg]
    rintro ⟨hk, hle, -⟩
    exact hr ((inRange_iff (by omega)).mpr ⟨hle, hk⟩)
  · rw [h.freed]
    congr 1
    refine heldPages_congr (fun _ _ _ => rfl) fun k hk hn => ?_
    exact ⟨fun hf => hf.1, fun hle => ⟨hle, hnone k hle hk hn⟩⟩

/-- A page that is passed over is still mapped, so that the range has not been released. -/
theorem DeallocExact.nonePassed (hb : Backed kend oldsz vm)
    (hex : DeallocExact kend oldsz newsz vm) : NonePassed newsz oldsz vm := by
  obtain ⟨vm', hrun, hrel⟩ := deallocuvm_released hold hlt hb
  obtain ⟨r, vm'', hrun', hex⟩ := hex
  rw [hrun] at hrun'
  injection hrun' with hpair
  injection hpair with hr hvm
  subst hvm
  rw [if_neg (by omega)] at hex
  refine (nonePassed_iff hold hlt).mpr fun k hk hkl hne => ?_
  by_contra hnr
  have hhi : pages oldsz ≤ 524288 := pages_le_user hold
  have hdiv : k * PGSIZE / PGSIZE = k := Nat.mul_div_cancel k (by decide)
  have hin : InRange newsz oldsz (k * PGSIZE) :=
    (inRange_iff (by omega)).mpr (by rw [hdiv]; exact ⟨hk, hkl⟩)
  have hgone : vm'.page k = none := hex.2.gone (k * PGSIZE) (by simp only [PGSIZE]; omega) hin
  rw [hrel.page k (by omega), if_neg (fun h => hnr h.2.2)] at hgone
  exact hne hgone

end

/-- **`deallocuvm` releases exactly the requested range if and only if no page is passed over.** -/
theorem deallocuvm_exact_iff (kend oldsz newsz : Nat) (vm : Vm) (hold : oldsz ≤ KERNBASE)
    (hb : Backed kend oldsz vm) : DeallocExact kend oldsz newsz vm ↔ oldsz ≤ newsz ∨ NonePassed newsz oldsz vm := by
  by_cases hle : oldsz ≤ newsz
  · refine ⟨fun _ => .inl hle, fun _ => ⟨oldsz, vm, ?_, ?_⟩⟩
    · rw [deallocuvm, if_pos hle]
    · rw [if_pos hle]
      exact ⟨rfl, rfl⟩
  · constructor
    · intro hex
      exact .inr (hex.nonePassed hold (by omega) hb)
    · rintro (h | hnone)
      · exact absurd h hle
      · obtain ⟨vm', hrun, hrel⟩ := deallocuvm_released hold (Nat.lt_of_not_le hle) hb
        refine ⟨newsz, vm', hrun, ?_⟩
        rw [if_neg hle]
        exact ⟨rfl, hrel.range hold (by omega) hnone⟩

/-- One page, the first of page table `d`, in physical page `pa`. -/
def onePage (d pa : Nat) : Vm where
  pgdir i := if i = d then some ⟨0x200000, fun j => if j = 0 then some ⟨pa, 6⟩ else none⟩ else none
  mem _ _ := 0
  freed := []

theorem onePage_pte (d pa va : Nat) :
    (onePage d pa).pte va = if PDX va = d ∧ PTX va = 0 then some ⟨pa, 6⟩ else none := by
  rw [Vm.pte, onePage]
  by_cases hd : PDX va = d
  · simp [hd]
  · simp [hd]

theorem onePage_backed (d sz : Nat) : Backed 0x200000 sz (onePage d 0x400000) := by
  intro k _ e he
  rw [Vm.page, onePage_pte] at he
  split_ifs at he
  injection he with he
  rw [← he]
  decide

theorem deallocuvm_exact_first_table : DeallocExact 0x200000 0x1000 0 (onePage 0 0x400000) :=
  (deallocuvm_exact_iff 0x200000 0x1000 0 (onePage 0 0x400000) (by decide) (onePage_backed 0 0x1000)).mpr
    (.inr fun _ _ _ hp => absurd hp (Nat.not_lt_zero _))

/-- With the first directory entry absent and one page at `0x400000`, a release of `[0x1000, 0x401000)` jumps
    from `0x1000` to `0x401000` and leaves the page mapped. -/
theorem deallocuvm_passes_page : ¬ DeallocExact 0x200000 0x401000 0x1000 (onePage 1 0x400000) := by
  intro hex
  have hnone := hex.nonePassed (by decide) (by decide) (onePage_backed 1 0x401000)
  obtain ⟨d, hd, -, hs⟩ := hnone 0x400000 ⟨by decide, by decide⟩ (by rw [onePage_pte]; decide) (by decide)
  have hd0 : d = 0 := Nat.lt_one_iff.mp hd
  rw [hd0] at hs
  exact Bool.noConfusion hs

end Xv6Vm
