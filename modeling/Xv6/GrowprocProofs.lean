import Xv6.DeallocuvmProofs

/-!
# `proc.c` — when `growproc` is exact or without effect

A process whose pages are present exactly below its size calls `growproc`. `allocuvm` goes through the pages it
has to add; `Mapped` says what it has done so far, for any answers of `kalloc`. It stops at the first page it
does not get, and `deallocuvm` takes back what was added.

Three things go wrong. A size of 0 is taken for an error after the pages are gone; a size below 0 wraps to a
large one, which `deallocuvm` reads as nothing to do; and a page table that `mappages` does not get is not
noticed. `growproc_exact_iff` says that there is nothing else.
-/

namespace Xv6Vm

open Function Option

variable {kend lo hi : Nat} {vm vm' : Vm} {sup : Supply} {p : Proc}

/-- The pages of the process are present exactly below its size, each in a page of its own. -/
structure Consistent (kend : Nat) (p : Proc) : Prop where
  size : p.sz < KERNBASE
  present : ∀ va < KERNBASE, (p.vm.pte va).isSome = true ↔ va < PGROUNDUP p.sz
  backed : Backed kend p.sz p.vm
  apart : ∀ j < pages p.sz, ∀ k < pages p.sz, ∀ e e', p.vm.page j = some e → p.vm.page k = some e' →
    e.pa = e'.pa → j = k

/-- `kalloc` hands out pages of the allocator, each once and none that the process uses. -/
structure Fresh (kend : Nat) (p : Proc) (sup : Supply) : Prop where
  pool : ∀ a pa, sup.data a = some pa → pa ≠ 0 ∧ Allocatable kend pa
  once : ∀ a b pa, sup.data a = some pa → sup.data b = some pa → a = b
  unused : ∀ a pa, sup.data a = some pa → ∀ k < pages p.sz, ∀ e, p.vm.page k = some e → e.pa ≠ pa

theorem Consistent.page_isSome (h : Consistent kend p) {k : Nat} (hk : k < 524288) :
    (p.vm.page k).isSome = true ↔ k < pages p.sz := by
  have hva : k * PGSIZE < KERNBASE := by simp only [PGSIZE, KERNBASE]; omega
  rw [Vm.page, h.present _ hva, PGROUNDUP_eq (le_of_lt h.size)]
  exact Nat.mul_lt_mul_right (by decide)

theorem Consistent.page_none (h : Consistent kend p) {k : Nat} (hk : k < 524288)
    (hle : pages p.sz ≤ k) : p.vm.page k = none := by
  cases hp : p.vm.page k with
  | none => rfl
  | some e =>
    have := (h.page_isSome hk).mp (by rw [hp]; rfl)
    omega

/-! ## One page -/

/-- The page table of page `k` is there or `kalloc` gives a page for it. -/
def Supplied (sup : Supply) (vm : Vm) (k : Nat) : Prop :=
  vm.tabled k = true ∨ sup.table (k * PGSIZE) ≠ none

/-- What `mappages` of page `k` leaves. -/
structure OneMapped (sup : Supply) (k pa perm : Nat) (vm vm' : Vm) : Prop where
  here : Supplied sup vm k → vm'.page k = some ⟨pa, perm⟩
  lost : ¬ Supplied sup vm k → vm'.page k = none
  page : ∀ j < 1048576, j ≠ k → vm'.page j = vm.page j
  tables : ∀ d, (vm'.pgdir d).isSome = true ↔
    (vm.pgdir d).isSome = true ∨ (d = k / 1024 ∧ sup.table (k * PGSIZE) ≠ none)
  mem : vm'.mem = vm.mem
  freed : vm'.freed = vm.freed

/-- The page that holds a page table. -/
def Vm.tablePage (vm : Vm) (d : Nat) : Option Nat :=
  (vm.pgdir d).map Table.pa

/-- Page `k` has got the entry `e`, and a page table if it had none. -/
structure Entered (table : Nat → Option Nat) (k : Nat) (e : Pte) (vm vm' : Vm) : Prop where
  page : ∀ j < 1048576, vm'.page j = if j = k then some e else vm.page j
  tables : ∀ d, vm'.tablePage d = if d = k / 1024 then (vm.tablePage d).or (table (k * PGSIZE)) else vm.tablePage d
  mem : vm'.mem = vm.mem
  freed : vm'.freed = vm.freed

theorem tablePage_setPte (vm : Vm) (va d : Nat) (e : Option Pte) : (vm.setPte va e).tablePage d = vm.tablePage d := by
  simp only [Vm.tablePage, Vm.setPte]
  split_ifs
  · rw [map_map]
    rfl
  · rfl

/-- A page table that is added is empty. -/
theorem page_addTable {k j pa : Nat} (hj : j < 1048576) (hn : vm.pgdir (k / 1024) = none) :
    Vm.page { vm with pgdir := update vm.pgdir (k / 1024) (some ⟨pa, fun _ => none⟩) } j = vm.page j := by
  have hmod : j / 1024 % 1024 = j / 1024 := by omega
  simp only [Vm.page, Vm.pte, PDX_page, PTX_page, hmod]
  by_cases hd : j / 1024 = k / 1024
  · rw [hd, hn, update_self]
    rfl
  · rw [update_of_ne hd]

/-- **One turn** of the loop of `mappages`: there is no page table to be had, or the page gets its entry. -/
theorem walkpgdir_turn {table : Nat → Option Nat} {k : Nat} (hk : k < 1048576) (hn : vm.page k = none) :
    (vm.tablePage (k / 1024) = none ∧ table (k * PGSIZE) = none ∧
      walkpgdir vm (k * PGSIZE) true (table (k * PGSIZE)) = (false, vm)) ∨
    ∃ vm₁, walkpgdir vm (k * PGSIZE) true (table (k * PGSIZE)) = (true, vm₁) ∧ vm₁.page k = none ∧
      (vm.tabled k = true ∨ table (k * PGSIZE) ≠ none) ∧
      ∀ e, Entered table k e vm (vm₁.setPte (k * PGSIZE) (some e)) := by
  have hmod : k / 1024 % 1024 = k / 1024 := by omega
  cases htab : vm.pgdir (k / 1024) with
  | some t =>
    have hsome : vm.tabled k = true := by rw [Vm.tabled, hmod, htab]; rfl
    refine .inr ⟨vm, by simp [walkpgdir, hmod, htab], hn, .inl hsome, fun e => ⟨fun j hj => ?_, fun d => ?_, rfl, rfl⟩⟩
    · exact Vm.page_setPte _ hk hj hsome
    · rw [tablePage_setPte]
      split_ifs with hd
      · simp [Vm.tablePage, hd, htab]
      · rfl
  | none =>
    cases hpage : table (k * PGSIZE) with
    | none => exact .inl ⟨by rw [Vm.tablePage, htab]; rfl, rfl, by simp [walkpgdir, hmod, htab]⟩
    | some tp =>
      set vm₁ : Vm := { vm with pgdir := update vm.pgdir (k / 1024) (some ⟨tp, fun _ => none⟩) } with hvm₁
      have hsome : vm₁.tabled k = true := by rw [Vm.tabled, hmod, hvm₁]; simp
      have hpages : ∀ j < 1048576, vm₁.page j = vm.page j := fun j hj => page_addTable hj htab
      refine .inr ⟨vm₁, by simp [walkpgdir, hmod, htab, hvm₁], by rw [hpages k hk, hn], .inr (by rintro ⟨⟩),
        fun e => ⟨fun j hj => ?_, fun d => ?_, rfl, rfl⟩⟩
      · rw [Vm.page_setPte _ hk hj hsome, hpages j hj]
      · rw [tablePage_setPte, Vm.tablePage, hvm₁]
        simp only [update_apply]
        split_ifs with hd
        · simp [Vm.tablePage, hd, htab, hpage]
        · rfl

theorem mappages_one {k pa perm : Nat} (hk : k < 1048576) (hn : vm.page k = none) :
    ∃ r vm', mappages sup.table vm (k * PGSIZE) PGSIZE pa perm = .ok (r, vm') ∧ OneMapped sup k pa perm vm vm' := by
  have hmod : k / 1024 % 1024 = k / 1024 := by omega
  have hround : PGROUNDDOWN (k * PGSIZE) = k * PGSIZE := by simp only [PGROUNDDOWN, PGSIZE]; omega
  have hlast : PGROUNDDOWN (k * PGSIZE + PGSIZE - 1) = k * PGSIZE := by
    simp only [PGROUNDDOWN, PGSIZE]
    omega
  have hone : mappages sup.table vm (k * PGSIZE) PGSIZE pa perm = mappagesLoop sup.table perm 1 (k * PGSIZE) pa vm := by
    simp only [mappages, hround, hlast, Nat.sub_self, Nat.zero_div, Nat.zero_add]
  have hsome : ∀ (v : Vm) d, (v.pgdir d).isSome = (v.tablePage d).isSome := fun v d => isSome_map.symm
  rw [hone, mappagesLoop]
  rcases @walkpgdir_turn vm sup.table k hk hn with ⟨htab, hpage, hwalk⟩ | ⟨vm₁, hwalk, hnone, hsup, he⟩
  · have hnot : ¬ Supplied sup vm k := by simp [Supplied, Vm.tabled, hmod, hsome, htab, hpage]
    refine ⟨-1, vm, by rw [hwalk], fun h => absurd h hnot, fun _ => hn, fun _ _ _ => rfl, fun d => ?_, rfl, rfl⟩
    simp [hpage]
  · have hpte : vm₁.pte (k * PGSIZE) = none := hnone
    refine ⟨0, _, by rw [hwalk]; simp only [hpte]; rfl, ?_⟩
    have he := he ⟨pa, perm⟩
    refine ⟨fun _ => ?_, fun h => absurd hsup h, fun j hj hjk => ?_, fun d => ?_, he.mem, he.freed⟩
    · rw [he.page k hk, if_pos rfl]
    · rw [he.page j hj, if_neg hjk]
    · rw [hsome, hsome, he.tables]
      split_ifs with hd
      · simp [hd, isSome_iff_ne_none]
      · simp [hd]

/-! ## The loop of `allocuvm` -/

/-- The page table of page `k` exists when the loop that started at page `lo` has done page `k`: it existed
    before, or one of the requests for it has been met. -/
def Tabled (sup : Supply) (vm : Vm) (lo k : Nat) : Prop :=
  vm.tabled k = true ∨ ∃ i, lo ≤ i ∧ i ≤ k ∧ i / 1024 = k / 1024 ∧ sup.table (i * PGSIZE) ≠ none

/-- The loop of `allocuvm` has done the pages from `lo` to `k`. -/
structure Mapped (sup : Supply) (lo k : Nat) (vm vm' : Vm) : Prop where
  new : ∀ j, lo ≤ j → j < k → Tabled sup vm lo j →
    ∃ pa, sup.data (j * PGSIZE) = some pa ∧ vm'.page j = some ⟨pa, PTE_W ||| PTE_U⟩ ∧ ∀ i, vm'.mem pa i = 0
  lost : ∀ j, lo ≤ j → j < k → ¬ Tabled sup vm lo j → vm'.page j = none
  page : ∀ j < 1048576, ¬ (lo ≤ j ∧ j < k) → vm'.page j = vm.page j
  tables : ∀ d, (vm'.pgdir d).isSome = true ↔
    (vm.pgdir d).isSome = true ∨ ∃ i, lo ≤ i ∧ i < k ∧ i / 1024 = d ∧ sup.table (i * PGSIZE) ≠ none
  mem : ∀ pa, (∀ j, lo ≤ j → j < k → sup.data (j * PGSIZE) ≠ some pa) → vm'.mem pa = vm.mem pa
  freed : vm'.freed = vm.freed

theorem Mapped.start (sup : Supply) (lo : Nat) (vm : Vm) : Mapped sup lo lo vm vm where
  new j h₁ h₂ := absurd h₁ (by omega)
  lost j h₁ h₂ := absurd h₁ (by omega)
  page _ _ _ := rfl
  tables d := by
    refine ⟨.inl, ?_⟩
    rintro (h | ⟨i, h₁, h₂, -⟩)
    · exact h
    · omega
  mem _ _ := rfl
  freed := rfl

/-- Whether page `k` gets its page table can be said at its turn. -/
theorem Mapped.supplied_iff {k : Nat} (h : Mapped sup lo k vm vm') (hlo : lo ≤ k) (hk : k < 1048576) :
    Supplied sup vm' k ↔ Tabled sup vm lo k := by
  have hmod : k / 1024 % 1024 = k / 1024 := by omega
  rw [Supplied, Tabled, Vm.tabled, Vm.tabled, hmod, h.tables]
  constructor
  · rintro ((h | ⟨i, h₁, h₂, h₃, h₄⟩) | h)
    · exact .inl h
    · exact .inr ⟨i, h₁, by omega, h₃, h₄⟩
    · exact .inr ⟨k, hlo, le_refl k, rfl, h⟩
  · rintro (h | ⟨i, h₁, h₂, h₃, h₄⟩)
    · exact .inl (.inl h)
    · rcases lt_or_eq_of_le h₂ with hlt | heq
      · exact .inl (.inr ⟨i, h₁, hlt, h₃, h₄⟩)
      · exact .inr (heq ▸ h₄)

/-- One round of the loop: the page is cleared and mapped. -/
theorem Mapped.step {k pa : Nat} {vm₁ vm₂ : Vm} (h : Mapped sup lo k vm vm₁) (hlo : lo ≤ k)
    (hk : k < 1048576) (hdata : sup.data (k * PGSIZE) = some pa)
    (honce : ∀ j, sup.data (j * PGSIZE) = some pa → j = k) (hone : OneMapped sup k pa (PTE_W ||| PTE_U)
      { vm₁ with mem := update vm₁.mem pa fun _ => 0 } vm₂) :
    Mapped sup lo (k + 1) vm vm₂ := by
  have hsup : Supplied sup { vm₁ with mem := update vm₁.mem pa fun _ => 0 } k
      ↔ Tabled sup vm lo k := h.supplied_iff hlo hk
  refine ⟨fun j h₁ h₂ ht => ?_, fun j h₁ h₂ ht => ?_, fun j hj hout => ?_, fun d => ?_,
    fun q hq => ?_, hone.freed.trans h.freed⟩
  · rcases lt_or_eq_of_le (Nat.lt_succ_iff.mp h₂) with hlt | rfl
    · obtain ⟨q, hq, hpage, hzero⟩ := h.new j h₁ hlt ht
      have hne : q ≠ pa := by
        intro heq
        have := honce j (by rw [hq, heq])
        omega
      refine ⟨q, hq, (hone.page j (by omega) (by omega)).trans hpage, fun i => ?_⟩
      rw [hone.mem]
      exact (congrFun (update_of_ne hne _ _) i).trans (hzero i)
    · refine ⟨pa, hdata, hone.here (hsup.mpr ht), fun i => ?_⟩
      rw [hone.mem]
      show update vm₁.mem pa (fun _ => 0) pa i = 0
      rw [update_self]
  · rcases lt_or_eq_of_le (Nat.lt_succ_iff.mp h₂) with hlt | rfl
    · exact (hone.page j (by omega) (by omega)).trans (h.lost j h₁ hlt ht)
    · exact hone.lost fun hs => ht (hsup.mp hs)
  · refine (hone.page j hj (by omega)).trans ?_
    exact h.page j hj (by omega)
  · rw [hone.tables d]
    refine (or_congr (h.tables d) Iff.rfl).trans ?_
    constructor
    · rintro ((hd | ⟨i, h₁, h₂, h₃⟩) | ⟨rfl, ht⟩)
      · exact .inl hd
      · exact .inr ⟨i, h₁, by omega, h₃⟩
      · exact .inr ⟨k, hlo, Nat.lt_succ_self k, rfl, ht⟩
    · rintro (hd | ⟨i, h₁, h₂, h₃, ht⟩)
      · exact .inl (.inl hd)
      · rcases lt_or_eq_of_le (Nat.lt_succ_iff.mp h₂) with hlt | rfl
        · exact .inl (.inr ⟨i, h₁, hlt, h₃, ht⟩)
        · exact .inr ⟨h₃.symm, ht⟩
  · have hne : q ≠ pa := fun heq => hq k hlo (Nat.lt_succ_self k) (by rw [hdata, heq])
    rw [hone.mem]
    exact (update_of_ne hne _ _).trans (h.mem q fun j h₁ h₂ => hq j h₁ (by omega))

/-- The loop from page `lo` to `hi` gets the data pages before `m` and no page for `m`. -/
structure Stops (sup : Supply) (lo hi m : Nat) : Prop where
  above : lo ≤ m
  below : m ≤ hi
  got : ∀ j, lo ≤ j → j < m → sup.data (j * PGSIZE) ≠ none
  refused : m < hi → sup.data (m * PGSIZE) = none

theorem Stops.unique {m m' : Nat} (h : Stops sup lo hi m) (h' : Stops sup lo hi m') : m = m' := by
  rcases lt_trichotomy m m' with hlt | heq | hgt
  · exact absurd (h.refused (by have := h'.below; omega)) (h'.got m h.above hlt)
  · exact heq
  · exact absurd (h'.refused (by have := h.below; omega)) (h.got m' h'.above hgt)

/-- What `allocuvm` returns and leaves when its loop stops at page `m`. -/
def AllocEnds (sup : Supply) (lo newsz m : Nat) (vm : Vm) (x : Nat × Vm) : Prop :=
  ∃ vm₁, Mapped sup lo m vm vm₁ ∧ ((m = pages newsz ∧ x = (newsz, vm₁)) ∨
      (m < pages newsz ∧ x.1 = 0 ∧ Released vm₁ x.2 (From vm₁ lo) (pages newsz)))

variable {newsz : Nat}

/-- The pages mapped so far can be given back. -/
theorem Mapped.backed {k : Nat} (h : Mapped sup lo k vm vm') (hnew : newsz ≤ KERNBASE)
    (hb : Backed kend newsz vm) (hpool : ∀ a pa, sup.data a = some pa → pa ≠ 0 ∧ Allocatable kend pa) :
    Backed kend newsz vm' := by
  intro j hj e he
  have hhi : pages newsz ≤ 524288 := pages_le_user hnew
  by_cases hin : lo ≤ j ∧ j < k
  · by_cases ht : Tabled sup vm lo j
    · obtain ⟨pa, hpa, hpage, -⟩ := h.new j hin.1 hin.2 ht
      rw [hpage] at he
      injection he with he
      rw [← he]
      exact hpool _ pa hpa
    · rw [h.lost j hin.1 hin.2 ht] at he
      exact nomatch he
  · rw [h.page j (by omega) hin] at he
    exact hb j hj e he

/-- **What the loop of `allocuvm` does**, for any answers of `kalloc`. -/
theorem allocuvmLoop_ends {oldsz : Nat} (hle : oldsz ≤ newsz) (hnew : newsz < KERNBASE)
    (hb : Backed kend newsz vm) (hpool : ∀ a pa, sup.data a = some pa → pa ≠ 0 ∧ Allocatable kend pa)
    (honce : ∀ a b pa, sup.data a = some pa → sup.data b = some pa → a = b)
    (habsent : ∀ j, pages oldsz ≤ j → j < pages newsz → vm.page j = none)
    (k : Nat) (vm₁ : Vm) (hlo : pages oldsz ≤ k) (hhi : k ≤ pages newsz) (hm : Mapped sup (pages oldsz) k vm vm₁)
    (hgot : ∀ j, pages oldsz ≤ j → j < k → sup.data (j * PGSIZE) ≠ none) :
    ∃ m x, Stops sup (pages oldsz) (pages newsz) m ∧ allocuvmLoop kend sup oldsz newsz (k * PGSIZE) vm₁ = .ok x ∧
      AllocEnds sup (pages oldsz) newsz m vm x := by
  have hmax : pages newsz ≤ 524288 := pages_le_user (le_of_lt hnew)
  -- by the pages that are left
  induction hn : pages newsz - k generalizing k vm₁ with
  | zero =>
    have heq : k = pages newsz := by omega
    refine ⟨k, (newsz, vm₁), ⟨hlo, hhi, hgot, fun h => absurd h (by omega)⟩, ?_, vm₁, hm, .inl ⟨heq, rfl⟩⟩
    rw [allocuvmLoop, if_neg]
    exact fun h => absurd (lt_pages_iff.mpr h) (by omega)
  | succ n ih =>
    have hk : k < pages newsz := by omega
    rw [allocuvmLoop, if_pos (lt_pages_iff.mp hk)]
    cases hdata : sup.data (k * PGSIZE) with
    | none =>
      have hlt : oldsz < newsz := by
        rcases lt_or_eq_of_le hle with hlt | heq
        · exact hlt
        · rw [heq] at hlo
          omega
      obtain ⟨vm₂, hrun, hrel⟩ := deallocuvm_released (le_of_lt hnew) hlt
        (hm.backed (le_of_lt hnew) hb hpool)
      refine ⟨k, (0, vm₂), ⟨hlo, hhi, hgot, fun _ => hdata⟩, ?_, vm₁, hm, .inr ⟨hk, rfl, hrel⟩⟩
      rw [hrun]
    | some pa =>
      have hnone : vm₁.page k = none := by
        rw [hm.page k (by omega) (by omega)]
        exact habsent k hlo hk
      have hmap : ∃ r vm₂, mappages sup.table { vm₁ with mem := update vm₁.mem pa fun _ => 0 } (k * PGSIZE)
            PGSIZE pa (PTE_W ||| PTE_U) = .ok (r, vm₂) ∧
          OneMapped sup k pa (PTE_W ||| PTE_U)
            { vm₁ with mem := update vm₁.mem pa fun _ => 0 } vm₂ :=
        mappages_one (by omega) hnone
      obtain ⟨r, vm₂, hrun, hone⟩ := hmap
      have hstep : Mapped sup (pages oldsz) (k + 1) vm vm₂ := by
        refine hm.step hlo (by omega) hdata (fun j hj => ?_) hone
        exact Nat.eq_of_mul_eq_mul_right (by decide) (honce _ _ pa hj hdata)
      have hgot' : ∀ j, pages oldsz ≤ j → j < k + 1 → sup.data (j * PGSIZE) ≠ none := by
        intro j h₁ h₂
        rcases lt_or_eq_of_le (Nat.lt_succ_iff.mp h₂) with hlt | rfl
        · exact hgot j h₁ hlt
        · rw [hdata]
          exact nofun
      have haddr : k * PGSIZE + PGSIZE = (k + 1) * PGSIZE := by ring
      obtain ⟨m, x, hstops, hloop, hends⟩ :=
        ih (k + 1) vm₂ (by omega) (by omega) hstep hgot' (by omega)
      refine ⟨m, x, hstops, ?_, hends⟩
      dsimp only
      rw [hrun, haddr]
      exact hloop

/-! ## What a process keeps -/

theorem mem_heldPages {P : Nat → Prop} [DecidablePred P] {pa : Nat} (h : pa ∈ heldPages vm P hi) :
    ∃ j < hi, P j ∧ ∃ e, vm.page j = some e ∧ e.pa = pa := by
  obtain ⟨j, hj, hf⟩ := List.mem_filterMap.mp h
  split_ifs at hf with hp
  obtain ⟨e, he, hpa⟩ := map_eq_some_iff.mp hf
  exact ⟨j, List.mem_range.mp hj, hp, e, he, hpa⟩

/-- A byte stays when its page stays mapped to the same memory and that memory stays. -/
theorem byte_congr {va : Nat} (hpage : vm'.page (va / PGSIZE) = vm.page (va / PGSIZE))
    (hmem : ∀ e, vm.page (va / PGSIZE) = some e → vm'.mem e.pa = vm.mem e.pa) : vm'.byte va = vm.byte va := by
  rw [Vm.byte, Vm.byte, vm'.pte_eq_page, vm.pte_eq_page, hpage]
  cases he : vm.page (va / PGSIZE) with
  | none => rfl
  | some e => exact congrArg some (congrFun (hmem e he) _)

theorem div_lt_pages {va sz : Nat} (h : va < sz) : va / PGSIZE < pages sz := by
  simp only [pages, PGSIZE]
  omega

/-- Presence by page numbers gives presence by addresses. -/
theorem present_of_pages {sz : Nat} (hsz : sz ≤ KERNBASE) (h : ∀ k < 524288, (vm.page k).isSome = true ↔ k < pages sz) :
    ∀ va < KERNBASE, (vm.pte va).isSome = true ↔ va < PGROUNDUP sz := by
  intro va hva
  rw [vm.pte_eq_page, h _ (by simp only [PGSIZE, KERNBASE] at hva ⊢; omega), PGROUNDUP_eq hsz]
  exact Nat.div_lt_iff_lt_mul (by decide)

/-- In a consistent address space the loop of `deallocuvm` gets to every page. -/
theorem Consistent.reached (h : Consistent kend p) {k j : Nat} (hk : k ≤ j)
    (hj : j < pages p.sz) : Reached p.vm k j := by
  have hhi : pages p.sz ≤ 524288 := pages_le_user (le_of_lt h.size)
  have htab : (p.vm.pgdir (k / 1024)).isSome = true := by
    by_contra hn
    have hnone : p.vm.page k = none := by
      refine Vm.page_eq_none_of_not_tabled ?_
      rw [Vm.tabled, Nat.mod_eq_of_lt (by omega)]
      simpa using hn
    have hsome := (h.page_isSome (by omega : k < 524288)).mpr (by omega)
    rw [hnone] at hsome
    exact Bool.noConfusion hsome
  by_cases hd : j / 1024 = k / 1024
  · exact .inl (by omega)
  · exact .inr ⟨k / 1024, by omega, le_refl _, htab⟩

/-- **Shrinking**: the pages above the new size go, the rest stays as it is. -/
theorem Consistent.shrink (h : Consistent kend p) (hlt : newsz < p.sz) :
    ∃ vm', deallocuvm kend p.sz newsz p.vm = .ok (newsz, vm') ∧ Consistent kend ⟨newsz, vm'⟩ ∧
      ∀ va, va / PGSIZE < pages newsz → vm'.byte va = p.vm.byte va := by
  have hsz := h.size
  have hhi : pages p.sz ≤ 524288 := pages_le_user (le_of_lt hsz)
  have hle : pages newsz ≤ pages p.sz := pages_mono (le_of_lt hlt)
  obtain ⟨vm', hrun, hrel⟩ := deallocuvm_released (le_of_lt hsz) hlt h.backed
  have hkept : ∀ k < pages newsz, vm'.page k = p.vm.page k := by
    intro k hk
    rw [hrel.page k (by omega), if_neg]
    rintro ⟨-, hf, -⟩
    omega
  have hgone : ∀ k, pages newsz ≤ k → k < 524288 → vm'.page k = none := by
    intro k hk hmax
    rw [hrel.page k (by omega)]
    by_cases hkl : k < pages p.sz
    · rw [if_pos ⟨hkl, hk, h.reached hk hkl⟩]
    · rw [if_neg (fun hf => hkl hf.1), h.page_none hmax (by omega)]
  have hpresent : ∀ k < 524288, (vm'.page k).isSome = true ↔ k < pages newsz := by
    intro k hk
    by_cases hkn : k < pages newsz
    · rw [hkept k hkn, h.page_isSome hk]
      exact ⟨fun _ => hkn, fun _ => by omega⟩
    · rw [hgone k (by omega) hk]
      exact ⟨nofun, fun hf => absurd hf hkn⟩
  refine ⟨vm', hrun, ⟨hlt.trans hsz, ?_, ?_, ?_⟩, fun va hva => ?_⟩
  · exact present_of_pages (le_of_lt (hlt.trans hsz)) hpresent
  · intro k hk e he
    have hk' : k < pages newsz := hk
    rw [hkept k hk'] at he
    exact h.backed k (by omega) e he
  · intro j hj k hk e e' he he'
    have hj' : j < pages newsz := hj
    have hk' : k < pages newsz := hk
    rw [hkept j hj'] at he
    rw [hkept k hk'] at he'
    exact h.apart j (by omega) k (by omega) e e' he he'
  · refine byte_congr (hkept _ hva) fun e he => hrel.mem e.pa fun hmem => ?_
    -- the memory given back is that of other pages
    obtain ⟨j, hj, hf, e', he', hpa⟩ := mem_heldPages hmem
    have := h.apart j hj _ (by omega) e' e he' he hpa
    have := hf.1
    omega

/-- `allocuvm` of a consistent address space, whatever `kalloc` returns. -/
theorem Consistent.alloc (h : Consistent kend p) (hf : Fresh kend p sup)
    (hle : p.sz ≤ newsz) (hnew : newsz < KERNBASE) :
    ∃ m x, Stops sup (pages p.sz) (pages newsz) m ∧ allocuvm kend sup p.sz newsz p.vm = .ok x ∧
      AllocEnds sup (pages p.sz) newsz m p.vm x := by
  have hmax : pages newsz ≤ 524288 := pages_le_user (le_of_lt hnew)
  have habsent : ∀ j, pages p.sz ≤ j → j < pages newsz → p.vm.page j = none :=
    fun j h₁ h₂ => h.page_none (by omega) h₁
  have hb : Backed kend newsz p.vm := by
    intro k hk e he
    by_cases hkl : k < pages p.sz
    · exact h.backed k hkl e he
    · rw [habsent k (by omega) hk] at he
      exact nomatch he
  have hrun : allocuvm kend sup p.sz newsz p.vm = allocuvmLoop kend sup p.sz newsz (pages p.sz * PGSIZE) p.vm := by
    rw [allocuvm, if_neg (by omega), if_neg (by omega), PGROUNDUP_eq (le_of_lt h.size)]
  rw [hrun]
  exact allocuvmLoop_ends hle hnew hb hf.pool hf.once habsent (pages p.sz) p.vm (le_refl _)
    (pages_mono hle) (Mapped.start sup (pages p.sz) p.vm) (fun j h₁ h₂ => absurd h₁ (by omega))

/-- What `allocuvm` leaves alone: the pages below the old size with their bytes. -/
theorem Mapped.kept {m : Nat} (hf : Fresh kend p sup) (hsz : p.sz ≤ KERNBASE)
    (hm : Mapped sup (pages p.sz) m p.vm vm') {k : Nat} (hk : k < pages p.sz) :
    vm'.page k = p.vm.page k ∧ ∀ e, p.vm.page k = some e → vm'.mem e.pa = p.vm.mem e.pa := by
  have hhi : pages p.sz ≤ 524288 := pages_le_user hsz
  refine ⟨hm.page k (by omega) (by omega), fun e he => hm.mem e.pa fun j _ _ hd => ?_⟩
  exact hf.unused _ _ hd k hk e he rfl

/-- **Growing**: with every page table at hand the new pages are mapped and clear. -/
theorem Consistent.grown (h : Consistent kend p) (hf : Fresh kend p sup)
    (hle : p.sz ≤ newsz) (hnew : newsz < KERNBASE) (hm : Mapped sup (pages p.sz) (pages newsz) p.vm vm')
    (htab : ∀ k, pages p.sz ≤ k → k < pages newsz → Tabled sup p.vm (pages p.sz) k) :
    Consistent kend ⟨newsz, vm'⟩ ∧ (∀ va, va / PGSIZE < pages p.sz → vm'.byte va = p.vm.byte va) ∧
      ∀ va, pages p.sz ≤ va / PGSIZE → va / PGSIZE < pages newsz → vm'.byte va = some 0 := by
  have hsz := h.size
  have hmax : pages newsz ≤ 524288 := pages_le_user (le_of_lt hnew)
  have hmono : pages p.sz ≤ pages newsz := pages_mono hle
  have hkept := fun k (hk : k < pages p.sz) => hm.kept hf (le_of_lt hsz) hk
  have hnewp := fun k (h₁ : pages p.sz ≤ k) (h₂ : k < pages newsz) => hm.new k h₁ h₂ (htab k h₁ h₂)
  have hpresent : ∀ k < 524288, (vm'.page k).isSome = true ↔ k < pages newsz := by
    intro k hk
    by_cases hlo : k < pages p.sz
    · rw [(hkept k hlo).1, h.page_isSome hk]
      exact ⟨fun _ => by omega, fun _ => hlo⟩
    · by_cases hhi : k < pages newsz
      · obtain ⟨pa, -, hpage, -⟩ := hnewp k (by omega) hhi
        rw [hpage]
        exact ⟨fun _ => hhi, fun _ => rfl⟩
      · rw [hm.page k (by omega) (by omega), h.page_none hk (by omega)]
        exact ⟨nofun, fun hf => absurd hf hhi⟩
  -- where a page stands: the old ones as before, the new ones as `kalloc` said
  have hwhere : ∀ k < pages newsz, ∀ e, vm'.page k = some e →
      (k < pages p.sz ∧ p.vm.page k = some e) ∨ sup.data (k * PGSIZE) = some e.pa := by
    intro k hk e he
    by_cases hlo : k < pages p.sz
    · rw [(hkept k hlo).1] at he
      exact .inl ⟨hlo, he⟩
    · obtain ⟨pa, hdata, hpage, -⟩ := hnewp k (by omega) hk
      rw [hpage] at he
      injection he with he
      rw [← he]
      exact .inr hdata
  refine ⟨⟨hnew, present_of_pages (le_of_lt hnew) hpresent, ?_, ?_⟩, fun va hva => ?_, fun va hva hlt => ?_⟩
  · intro k hk e he
    rcases hwhere k hk e he with ⟨hlo, hold⟩ | hdata
    · exact h.backed k hlo e hold
    · exact hf.pool _ _ hdata
  · intro j hj k hk e e' he he' hpa
    rcases hwhere j hj e he with ⟨hlo, hold⟩ | hdata
    · rcases hwhere k hk e' he' with ⟨hlo', hold'⟩ | hdata'
      · exact h.apart j hlo k hlo' e e' hold hold' hpa
      · exact absurd hpa (hf.unused _ _ hdata' j hlo e hold)
    · rcases hwhere k hk e' he' with ⟨hlo', hold'⟩ | hdata'
      · exact absurd hpa.symm (hf.unused _ _ hdata k hlo' e' hold')
      · rw [hpa] at hdata
        exact Nat.eq_of_mul_eq_mul_right (by decide) (hf.once _ _ _ hdata hdata')
  · exact byte_congr (hkept _ hva).1 (hkept _ hva).2
  · obtain ⟨pa, -, hpage, hzero⟩ := hnewp _ hva hlt
    rw [Vm.byte, vm'.pte_eq_page, hpage]
    exact congrArg some (hzero _)

/-- Some page before `k` in an earlier page table has its table, when the loop that started at `lo` gets
    there. -/
def TabledBefore (sup : Supply) (vm : Vm) (lo k : Nat) : Prop :=
  ∃ i, lo ≤ i ∧ i / 1024 < k / 1024 ∧ Tabled sup vm lo i

/-- The pages `deallocuvm` gets to after the loop of `allocuvm` stopped at page `m`. -/
theorem Mapped.reached_iff {m k : Nat} (hm : Mapped sup lo m vm vm') (hk : k < m) (hmax : m ≤ 1048576) :
    Reached vm' lo k ↔ lo % 1024 ≤ k % 1024 ∨ TabledBefore sup vm lo k := by
  refine or_congr Iff.rfl ?_
  constructor
  · rintro ⟨d, hd, hlo, hs⟩
    rcases (hm.tables d).mp hs with hs | ⟨i, h₁, h₂, h₃, ht⟩
    · by_cases heq : d = lo / 1024
      · refine ⟨lo, le_refl lo, by omega, .inl ?_⟩
        rw [Vm.tabled, Nat.mod_eq_of_lt (by omega), ← heq]
        exact hs
      · refine ⟨d * 1024, by omega, by omega, .inl ?_⟩
        rw [Vm.tabled, Nat.mul_div_cancel d (by decide), Nat.mod_eq_of_lt (by omega)]
        exact hs
    · exact ⟨i, h₁, by omega, .inr ⟨i, h₁, le_refl i, rfl, ht⟩⟩
  · rintro ⟨i, h₁, h₂, ht⟩
    refine ⟨i / 1024, h₂, by omega, (hm.tables _).mpr ?_⟩
    rcases ht with ht | ⟨i', h₁', h₂', h₃', ht⟩
    · rw [Vm.tabled, Nat.mod_eq_of_lt (by omega)] at ht
      exact .inl ht
    · exact .inr ⟨i', h₁', by omega, h₃', ht⟩

/-- `allocuvm` that stops at page `m` takes back all it has mapped. -/
def TakenBack (sup : Supply) (vm : Vm) (lo m : Nat) : Prop :=
  ∀ k, lo ≤ k → k < m → Tabled sup vm lo k → k % 1024 < lo % 1024 → TabledBefore sup vm lo k

/-- After a refused page nothing is left exactly if all has been taken back. -/
theorem Consistent.refused_iff (h : Consistent kend p) {m : Nat} {vm₁ vm₂ : Vm}
    (hhi : hi ≤ 524288) (hmhi : m ≤ hi) (hm : Mapped sup (pages p.sz) m p.vm vm₁)
    (hrel : Released vm₁ vm₂ (From vm₁ (pages p.sz)) hi) :
    (∀ k, pages p.sz ≤ k → k < 524288 → vm₂.page k = none) ↔ TakenBack sup p.vm (pages p.sz) m := by
  constructor
  · intro hnone k h₁ h₂ ht hlt
    by_contra hnb
    have hnr : ¬ Reached vm₁ (pages p.sz) k := by
      rw [hm.reached_iff h₂ (by omega)]
      rintro (hr | hr)
      · omega
      · exact hnb hr
    have hgone := hnone k h₁ (by omega)
    obtain ⟨pa, -, hpage, -⟩ := hm.new k h₁ h₂ ht
    rw [hrel.page k (by omega), if_neg (fun hf => hnr hf.2.2), hpage] at hgone
    exact nomatch hgone
  · intro hback k h₁ hmax
    rw [hrel.page k (by omega)]
    by_cases hkm : k < m
    · by_cases ht : Tabled sup p.vm (pages p.sz) k
      · rw [if_pos]
        refine ⟨by omega, h₁, (hm.reached_iff hkm (by omega)).mpr ?_⟩
        by_cases hlt : pages p.sz % 1024 ≤ k % 1024
        · exact .inl hlt
        · exact .inr (hback k h₁ hkm ht (by omega))
      · rw [hm.lost k h₁ hkm ht, ite_self]
    · rw [hm.page k (by omega) (by omega), h.page_none hmax h₁, ite_self]

/-- **A refused page**: the process is as before. -/
theorem Consistent.refused (h : Consistent kend p) (hf : Fresh kend p sup) {m : Nat}
    {vm₁ vm₂ : Vm} (hhi : hi ≤ 524288) (hmhi : m ≤ hi) (hm : Mapped sup (pages p.sz) m p.vm vm₁)
    (hrel : Released vm₁ vm₂ (From vm₁ (pages p.sz)) hi) (hback : TakenBack sup p.vm (pages p.sz) m) :
    Consistent kend ⟨p.sz, vm₂⟩ ∧ ∀ va, va / PGSIZE < pages p.sz → vm₂.byte va = p.vm.byte va := by
  have hsz := h.size
  have hmax : pages p.sz ≤ 524288 := pages_le_user (le_of_lt hsz)
  have hgone := (h.refused_iff hhi hmhi hm hrel).mpr hback
  have hkept : ∀ k < pages p.sz, vm₂.page k = p.vm.page k := by
    intro k hk
    rw [hrel.page k (by omega), if_neg (fun hr => absurd hr.2.1 (by omega))]
    exact (hm.kept hf (le_of_lt hsz) hk).1
  have hpresent : ∀ k < 524288, (vm₂.page k).isSome = true ↔ k < pages p.sz := by
    intro k hk
    by_cases hlo : k < pages p.sz
    · rw [hkept k hlo]
      exact h.page_isSome hk
    · rw [hgone k (by omega) hk]
      exact ⟨nofun, fun hr => absurd hr hlo⟩
  refine ⟨⟨hsz, present_of_pages (le_of_lt hsz) hpresent, fun k hk e he => ?_, ?_⟩, fun va hva => ?_⟩
  · exact h.backed k hk e (hkept k hk ▸ he)
  · intro j hj k hk e e' he he'
    exact h.apart j hj k hk e e' (hkept j hj ▸ he) (hkept k hk ▸ he')
  · refine byte_congr (hkept _ hva) fun e he => ?_
    rw [hrel.mem e.pa fun hmem => ?_]
    · exact (hm.kept hf (le_of_lt hsz) hva).2 e he
    · -- what is given back came from `kalloc`
      obtain ⟨j, hj, hr, e', he', hpa⟩ := mem_heldPages hmem
      have hjm : j < m := by
        by_contra hn
        rw [hm.page j (by omega) (by omega), h.page_none (by omega) hr.1] at he'
        exact nomatch he'
      by_cases ht : Tabled sup p.vm (pages p.sz) j
      · obtain ⟨pa, hdata, hpage, -⟩ := hm.new j hr.1 hjm ht
        rw [hpage] at he'
        injection he' with he'
        have hpa' : e.pa = pa := by rw [← hpa, ← he']
        exact hf.unused _ _ hdata _ hva e he hpa'
      · rw [hm.lost j hr.1 hjm ht] at he'
        exact nomatch he'

end Xv6Vm
