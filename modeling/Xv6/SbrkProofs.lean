import Xv6.GrowprocProofs

/-!
# `sbrk` — exact or without effect, and the memory it gives

`growproc_exact_iff` puts the cases of `growproc` together: a process grows or shrinks by exactly `n` bytes, or
nothing happens, unless the size would become 0 or less or a page table cannot be had.

The second part follows a process through any sequence of calls with its own stores in between. New pages are
clear, but the rest of the last page is handed out as it is. `Clear` is the invariant: the bytes from the size
to the end of the last page are 0. It is kept by every step that does not leave something there.
-/

namespace Xv6Vm

open Function

variable {kend : Nat} {sup : Supply} {n : Int32} {p q : Proc}

/-! ## The size asked for -/

theorem newSize_of_nonneg (hsz : p.sz < KERNBASE) (hn : 0 ≤ n.toInt) : (newSize p.sz n : Int) = p.sz + n.toInt := by
  have := n.toInt_lt
  simp only [newSize, KERNBASE] at hsz ⊢
  omega

theorem newSize_of_neg (hsz : p.sz < KERNBASE) (hn : n.toInt < 0) (hle : -n.toInt ≤ p.sz) :
    (newSize p.sz n : Int) = p.sz + n.toInt := by
  simp only [newSize, KERNBASE] at hsz ⊢
  omega

/-- A size below 0 wraps to one above the old size. -/
theorem newSize_of_wrap (hsz : p.sz < KERNBASE) (hlt : p.sz < -n.toInt) : p.sz ≤ newSize p.sz n := by
  have := n.le_toInt
  simp only [newSize, KERNBASE] at hsz ⊢
  omega

/-! ## The cases of `growproc` -/

theorem growproc_zero (hn : n.toInt = 0) : growproc kend sup n p = .ok (0, p) := by
  simp [growproc, hn]

theorem growproc_pos {x : Nat × Vm} (hn : 0 < n.toInt) (h : allocuvm kend sup p.sz (newSize p.sz n) p.vm = .ok x) :
    growproc kend sup n p = .ok (if x.1 = 0 then (-1, ⟨p.sz, x.2⟩) else (0, ⟨x.1, x.2⟩)) := by
  obtain ⟨sz, vm⟩ := x
  have hne : n.toInt ≠ 0 := by omega
  simp only [growproc, if_pos hn, h, hne, ne_eq, not_false_eq_true, true_and]
  split_ifs with hz
  · rfl
  · rfl

theorem growproc_neg {x : Nat × Vm} (hn : n.toInt < 0) (h : deallocuvm kend p.sz (newSize p.sz n) p.vm = .ok x) :
    growproc kend sup n p = .ok (if x.1 = 0 then (-1, ⟨p.sz, x.2⟩) else (0, ⟨x.1, x.2⟩)) := by
  obtain ⟨sz, vm⟩ := x
  have hne : n.toInt ≠ 0 := by omega
  have hpos : ¬ 0 < n.toInt := by omega
  simp only [growproc, if_neg hpos, if_pos hn, h, hne, ne_eq, not_false_eq_true, true_and]
  split_ifs with hz
  · rfl
  · rfl

/-- More than the user part of the address space is refused at once. -/
theorem growproc_beyond (hsz : p.sz < KERNBASE) (hn : 0 < n.toInt) (hbig : KERNBASE ≤ p.sz + n.toInt) :
    growproc kend sup n p = .ok (-1, p) := by
  have hnew := newSize_of_nonneg hsz (le_of_lt hn)
  rw [growproc_pos hn (show allocuvm kend sup p.sz (newSize p.sz n) p.vm = .ok (0, p.vm) from ?_)]
  · rfl
  · rw [allocuvm, if_pos (by omega)]

/-- A negative size is not noticed. -/
theorem growproc_wrap (hsz : p.sz < KERNBASE) (hlt : p.sz < -n.toInt) :
    growproc kend sup n p = .ok (if p.sz = 0 then (-1, p) else (0, p)) := by
  have hnew := newSize_of_wrap hsz hlt
  rw [growproc_neg (by omega)
    (show deallocuvm kend p.sz (newSize p.sz n) p.vm = .ok (p.sz, p.vm) from ?_)]
  rw [deallocuvm, if_pos hnew]

/-- The new size 0 reads as an error, with the pages gone. -/
theorem growproc_all (hc : Consistent kend p) (hpos : 0 < p.sz) (hn : -n.toInt = p.sz) :
    ∃ vm', growproc kend sup n p = .ok (-1, ⟨p.sz, vm'⟩) ∧ vm'.pte 0 = none := by
  have hnew := newSize_of_neg hc.size (by omega) (le_of_eq hn)
  have hzero : newSize p.sz n = 0 := by omega
  obtain ⟨vm', hrun, hc', -⟩ := hc.shrink hpos
  rw [← hzero] at hrun
  refine ⟨vm', ?_, ?_⟩
  · rw [growproc_neg (by omega) hrun, if_pos hzero]
  · have habsent := hc'.present 0 (by decide)
    cases hp : vm'.pte 0 with
    | none => rfl
    | some e =>
      rw [hp] at habsent
      exact absurd (habsent.mp rfl) (show ¬ 0 < PGROUNDUP 0 by decide)

/-! ## Exact or without effect -/

/-- The process has grown by exactly `n` bytes: its pages are those below the new size, and the bytes it had
    and has are as before. -/
structure GrewBy (p q : Proc) (n : Int32) : Prop where
  size : (q.sz : Int) = p.sz + n.toInt
  present : ∀ va < KERNBASE, (q.vm.pte va).isSome = true ↔ va < PGROUNDUP q.sz
  kept : ∀ va < p.sz, va < q.sz → q.vm.byte va = p.vm.byte va

/-- The size and the set of present pages are as before. -/
structure SameExtent (p q : Proc) : Prop where
  size : q.sz = p.sz
  present : ∀ va < KERNBASE, (q.vm.pte va).isSome = (p.vm.pte va).isSome

/-- What `growproc` is for. -/
def SbrkExact (kend : Nat) (sup : Supply) (n : Int32) (p : Proc) : Prop :=
  ∃ r q, growproc kend sup n p = .ok (r, q) ∧ ((r = 0 ∧ GrewBy p q n) ∨ (r = -1 ∧ SameExtent p q))

/-- The page tables of a growth to `newsz`: when every page is had, so is every page table; when one is
    refused, no page mapped before stands where `deallocuvm` passes it over. -/
def TablesServe (sup : Supply) (p : Proc) (newsz : Nat) : Prop :=
  ∀ m, Stops sup (pages p.sz) (pages newsz) m →
    if m = pages newsz then ∀ k, pages p.sz ≤ k → k < m → Tabled sup p.vm (pages p.sz) k
    else TakenBack sup p.vm (pages p.sz) m

/-- A shrinking process keeps a byte, or has none; a growing one gets its page tables. -/
def GrowOk (sup : Supply) (n : Int32) (p : Proc) : Prop :=
  (n.toInt < 0 → p.sz = 0 ∨ -n.toInt < p.sz) ∧
    (0 < n.toInt → p.sz + n.toInt < KERNBASE → TablesServe sup p (newSize p.sz n))

theorem growproc_shrinks (hc : Consistent kend p) (hn : n.toInt < 0) (hlt : -n.toInt < p.sz) :
    ∃ q, growproc kend sup n p = .ok (0, q) ∧ (q.sz : Int) = p.sz + n.toInt ∧ Consistent kend q ∧
      ∀ va, va / PGSIZE < pages q.sz → q.vm.byte va = p.vm.byte va := by
  have hnew := newSize_of_neg hc.size hn (le_of_lt hlt)
  obtain ⟨vm', hrun, hc', hbytes⟩ := hc.shrink (show newSize p.sz n < p.sz by omega)
  refine ⟨⟨newSize p.sz n, vm'⟩, ?_, hnew, hc', hbytes⟩
  rw [growproc_neg hn hrun, if_neg (show newSize p.sz n ≠ 0 by omega)]

/-- `growproc` of more bytes, whatever `kalloc` returns: all pages are had, or one is refused. -/
theorem growproc_grows (hc : Consistent kend p) (hf : Fresh kend p sup) (hn : 0 < n.toInt)
    (hlt : p.sz + n.toInt < KERNBASE) : ∃ m vm₁, Stops sup (pages p.sz) (pages (newSize p.sz n)) m ∧
      Mapped sup (pages p.sz) m p.vm vm₁ ∧
      ((m = pages (newSize p.sz n) ∧ growproc kend sup n p = .ok (0, ⟨newSize p.sz n, vm₁⟩)) ∨
        (m < pages (newSize p.sz n) ∧ ∃ vm₂, growproc kend sup n p = .ok (-1, ⟨p.sz, vm₂⟩) ∧
          Released vm₁ vm₂ (From vm₁ (pages p.sz)) (pages (newSize p.sz n)))) := by
  have hnew := newSize_of_nonneg hc.size (le_of_lt hn)
  obtain ⟨m, x, hstops, hrun, vm₁, hm, hx⟩ :=
    hc.alloc hf (show p.sz ≤ newSize p.sz n by omega) (by omega)
  refine ⟨m, vm₁, hstops, hm, ?_⟩
  rcases hx with ⟨hmeq, rfl⟩ | ⟨hmlt, hzero, hrel⟩
  · refine .inl ⟨hmeq, ?_⟩
    rw [growproc_pos hn hrun, if_neg (show newSize p.sz n ≠ 0 by omega)]
  · refine .inr ⟨hmlt, x.2, ?_, hrel⟩
    rw [growproc_pos hn hrun, if_pos hzero]

/-- Growing is exact if and only if the page tables serve. -/
theorem sbrkExact_iff_tablesServe (hc : Consistent kend p) (hf : Fresh kend p sup) (hn : 0 < n.toInt)
    (hlt : p.sz + n.toInt < KERNBASE) : SbrkExact kend sup n p ↔ TablesServe sup p (newSize p.sz n) := by
  have hnew := newSize_of_nonneg hc.size (le_of_lt hn)
  have hle : p.sz ≤ newSize p.sz n := by omega
  have hlt' : newSize p.sz n < KERNBASE := by omega
  have hmax : pages (newSize p.sz n) ≤ 524288 := pages_le_user (le_of_lt hlt')
  obtain ⟨m, vm₁, hstops, hm, ⟨hmeq, hrun⟩ | ⟨hmlt, vm₂, hrun, hrel⟩⟩ := growproc_grows hc hf hn hlt
  · constructor
    · rintro ⟨r, q, hrun', ⟨-, hgrew⟩ | ⟨hr, -⟩⟩ m' hstops'
      · rw [hrun] at hrun'
        cases hrun'
        rw [← hstops.unique hstops', if_pos hmeq]
        intro k h₁ h₂
        by_contra hnt
        have hva : k * PGSIZE < KERNBASE := by simp only [PGSIZE, KERNBASE]; omega
        have hsome := (hgrew.present _ hva).mpr (by
          rw [PGROUNDUP_eq (le_of_lt hlt')]
          exact (Nat.mul_lt_mul_right (by decide)).mpr (by omega))
        have hlost : vm₁.pte (k * PGSIZE) = none := hm.lost k h₁ h₂ hnt
        rw [hlost] at hsome
        exact Bool.noConfusion hsome
      · rw [hrun] at hrun'
        cases hrun'
        exact absurd hr (by decide)
    · intro hserve
      have htab := hserve m hstops
      rw [if_pos hmeq, hmeq] at htab
      rw [hmeq] at hm
      obtain ⟨hc', hkept, -⟩ := hc.grown hf hle hlt' hm htab
      exact ⟨0, _, hrun, .inl ⟨rfl, hnew, hc'.present, fun va hva _ => hkept va (div_lt_pages hva)⟩⟩
  · constructor
    · rintro ⟨r, q, hrun', ⟨hr, -⟩ | ⟨-, hsame⟩⟩ m' hstops'
      · rw [hrun] at hrun'
        cases hrun'
        exact absurd hr (by decide)
      · rw [hrun] at hrun'
        cases hrun'
        rw [← hstops.unique hstops', if_neg (by omega)]
        refine (hc.refused_iff hmax (le_of_lt hmlt) hm hrel).mp fun k h₁ h₂ => ?_
        have hva : k * PGSIZE < KERNBASE := by simp only [PGSIZE, KERNBASE]; omega
        have hp := hsame.present _ hva
        have hnone : p.vm.pte (k * PGSIZE) = none := hc.page_none h₂ h₁
        rw [hnone] at hp
        exact Option.not_isSome_iff_eq_none.mp (by rw [Vm.page, hp]; decide)
    · intro hserve
      have hback := hserve m hstops
      rw [if_neg (by omega)] at hback
      obtain ⟨hc', -⟩ := hc.refused hf hmax (le_of_lt hmlt) hm hrel hback
      refine ⟨-1, _, hrun, .inr ⟨rfl, rfl, fun va hva => ?_⟩⟩
      exact Bool.eq_iff_iff.mpr ((hc'.present va hva).trans (hc.present va hva).symm)

theorem not_sbrkExact_all (hc : Consistent kend p) (hpos : 0 < p.sz) (hn : -n.toInt = p.sz) :
    ¬ SbrkExact kend sup n p := by
  rintro ⟨r, q, hrun, hcase⟩
  have hall : ∃ vm', growproc kend sup n p = .ok (-1, ⟨p.sz, vm'⟩) ∧ vm'.pte 0 = none :=
    growproc_all hc hpos hn
  obtain ⟨vm', hrun', hnone⟩ := hall
  rw [hrun'] at hrun
  cases hrun
  rcases hcase with ⟨hr, -⟩ | ⟨-, hsame⟩
  · exact absurd hr (by decide)
  · -- page 0 was present
    have hp := hsame.present 0 (by decide)
    have hround : 0 < PGROUNDUP p.sz := by
      have := hc.size
      rw [PGROUNDUP_eq (le_of_lt this)]
      simp only [pages, PGSIZE]
      omega
    have hsome := (hc.present 0 (by decide)).mpr hround
    simp only [hnone] at hp
    rw [hsome] at hp
    exact Bool.noConfusion hp

/-- **`growproc` is exact or without effect if and only if** a shrinking process keeps a byte (or had none) and
    a growing one gets its page tables. -/
theorem growproc_exact_iff (kend : Nat) (sup : Supply) (n : Int32) (p : Proc) (hc : Consistent kend p)
    (hf : Fresh kend p sup) : SbrkExact kend sup n p ↔ GrowOk sup n p := by
  have hsz := hc.size
  rcases Int.lt_trichotomy n.toInt 0 with hneg | hzero | hpos
  · have hvac : (0 < n.toInt → p.sz + n.toInt < KERNBASE → TablesServe sup p (newSize p.sz n)) :=
      fun h => absurd h (by omega)
    rcases lt_trichotomy (-n.toInt) p.sz with hlt | heq | hgt
    · refine ⟨fun _ => ⟨fun _ => .inr hlt, hvac⟩, fun _ => ?_⟩
      have hshr : ∃ q, growproc kend sup n p = .ok (0, q) ∧ (q.sz : Int) = p.sz + n.toInt ∧
          Consistent kend q ∧ ∀ va, va / PGSIZE < pages q.sz → q.vm.byte va = p.vm.byte va :=
        growproc_shrinks hc hneg hlt
      obtain ⟨q, hrun, hsize, hc', hkept⟩ := hshr
      exact ⟨0, q, hrun, .inl ⟨rfl, hsize, hc'.present, fun va _ hva => hkept va (div_lt_pages hva)⟩⟩
    · constructor
      · intro hex
        exact absurd hex (not_sbrkExact_all hc (by omega) heq)
      · rintro ⟨hok, -⟩
        rcases hok hneg with h0 | hlt
        · omega
        · omega
    · rw [SbrkExact, growproc_wrap hsz hgt]
      split_ifs with h0
      · exact ⟨fun _ => ⟨fun _ => .inl h0, hvac⟩, fun _ => ⟨-1, p, rfl, .inr ⟨rfl, rfl, fun _ _ => rfl⟩⟩⟩
      · constructor
        · rintro ⟨r, q, hrun, ⟨-, hgrew⟩ | ⟨hr, -⟩⟩
          · cases hrun
            have := hgrew.size
            omega
          · cases hrun
            exact absurd hr (by decide)
        · rintro ⟨hok, -⟩
          rcases hok hneg with h | h
          · exact absurd h h0
          · omega
  · refine ⟨fun _ => ⟨fun h => absurd h (by omega), fun h => absurd h (by omega)⟩, fun _ => ?_⟩
    exact ⟨0, p, growproc_zero hzero, .inl ⟨rfl, by omega, hc.present, fun _ _ _ => rfl⟩⟩
  · by_cases hbig : p.sz + n.toInt < KERNBASE
    · rw [sbrkExact_iff_tablesServe hc hf hpos hbig]
      exact ⟨fun h => ⟨fun hn => absurd hn (by omega), fun _ _ => h⟩, fun h => h.2 hpos hbig⟩
    · refine ⟨fun _ => ⟨fun h => absurd h (by omega), fun _ h => absurd h hbig⟩, fun _ => ?_⟩
      exact ⟨-1, p, growproc_beyond hsz hpos (by omega), .inr ⟨rfl, rfl, fun _ _ => rfl⟩⟩

/-- A process of one page. -/
def small : Proc :=
  ⟨4096, onePage 0 0x400000⟩

/-- No more memory. -/
def noPages : Supply where
  data _ := none
  table _ := none

theorem small_consistent : Consistent 0x200000 small where
  size := by decide
  present va hva := by
    have hidx : (PDX va = 0 ∧ PTX va = 0) ↔ va < 4096 := by
      simp only [PDX, PTX, KERNBASE] at hva ⊢
      omega
    rw [small, onePage_pte, show PGROUNDUP 4096 = 4096 from rfl]
    by_cases h : va < 4096
    · rw [if_pos (hidx.mpr h)]
      exact ⟨fun _ => h, fun _ => rfl⟩
    · rw [if_neg (fun h' => h (hidx.mp h'))]
      exact ⟨by rintro ⟨⟩, fun h' => absurd h' h⟩
  backed := onePage_backed 0 4096
  apart j hj k hk _ _ _ _ _ := by
    have hone : pages small.sz = 1 := rfl
    omega

theorem noPages_fresh (p : Proc) : Fresh 0x200000 p noPages :=
  ⟨nofun, nofun, nofun⟩

/-- One more page. -/
def nextPage : Supply where
  data va := if va = 4096 then some 0x401000 else none
  table _ := none

theorem nextPage_data {va pa : Nat} (h : nextPage.data va = some pa) : va = 4096 ∧ pa = 0x401000 := by
  simp only [nextPage] at h
  split_ifs at h with hva
  cases h
  exact ⟨hva, rfl⟩

theorem nextPage_fresh : Fresh 0x200000 small nextPage := by
  refine ⟨fun a pa h => ?_, fun a b pa ha hb => (nextPage_data ha).1.trans (nextPage_data hb).1.symm, ?_⟩
  · rw [(nextPage_data h).2]
    decide
  · intro a pa h k hk e he
    obtain rfl : k = 0 := Nat.lt_one_iff.mp hk
    cases he
    rw [(nextPage_data h).2]
    decide

/-- A process of one page asks for a hundred bytes and gets the second page. -/
theorem growproc_exact_small : SbrkExact 0x200000 nextPage 100 small := by
  refine (growproc_exact_iff 0x200000 nextPage 100 small small_consistent nextPage_fresh).mpr
    ⟨fun h => absurd h (by decide), fun _ _ m hm => ?_⟩
  have h1 : 1 ≤ m := hm.above
  have h2 : m ≤ 2 := hm.below
  by_cases hone : m = 1
  · subst hone
    cases hm.refused (by decide)
  · rw [if_pos (show m = pages (newSize small.sz 100) from (by omega : m = 2))]
    intro k hk hlt
    obtain rfl : k = 1 := le_antisymm (by omega) hk
    exact .inl (by decide)

/-- A process of one page that gives all of it back gets an error, and has lost the page. -/
theorem growproc_all_lost : ¬ SbrkExact 0x200000 noPages (-4096) small :=
  not_sbrkExact_all small_consistent (by decide) (by decide)

/-! ## Memory obtained by `sbrk` -/

/-- A store by the program: to a page that is present, writable and open to it, else it faults. -/
def store (p : Proc) (va : Nat) (b : UInt8) : Proc :=
  match p.vm.pte va with
  | none => p
  | some e =>
    if e.perm &&& (PTE_W ||| PTE_U) = PTE_W ||| PTE_U then
      let cells := update (p.vm.mem e.pa) (va % PGSIZE) b
      ⟨p.sz, { p.vm with mem := update p.vm.mem e.pa cells }⟩
    else p

/-- What the program does next. -/
inductive Event where
  | sbrk (sup : Supply) (n : Int32)
  | store (va : Nat) (b : UInt8)

/-- One step of the process; `kalloc` gives pages that are not in use. -/
inductive Step (kend : Nat) (p : Proc) : Event → Proc → Prop where
  | sbrk {sup : Supply} {n : Int32} {r : Int} {q : Proc} (hf : Fresh kend p sup)
      (h : growproc kend sup n p = .ok (r, q)) : Step kend p (.sbrk sup n) q
  | store (va : Nat) (b : UInt8) : va < KERNBASE → Step kend p (.store va b) (store p va b)

/-- The bytes of the last page behind the size are 0. -/
def Clear (p : Proc) : Prop :=
  ∀ va, p.sz ≤ va → va < PGROUNDUP p.sz → p.vm.byte va = some 0

/-- A step that leaves nothing behind the size: stores stay below it; a process shrinks to more than 0 bytes,
    and the bytes it gives up in the page it keeps are 0; a growing process gets its page tables. -/
def Tidy (p : Proc) : Event → Prop
  | .store va b => va < p.sz ∨ b = 0
  | .sbrk sup n =>
    (n.toInt < 0 → -n.toInt < p.sz →
      ∀ va : Nat, p.sz + n.toInt ≤ va → va < p.sz → va < PGROUNDUP (newSize p.sz n) → p.vm.byte va = some 0) ∧
    (-n.toInt = p.sz → p.sz = 0) ∧
    (0 < n.toInt → p.sz + n.toInt < KERNBASE → TablesServe sup p (newSize p.sz n))

/-- Runs of the process whose steps all satisfy `P`. -/
inductive Run (kend : Nat) (P : Proc → Event → Prop) (p₀ : Proc) : Proc → Prop where
  | start : Run kend P p₀ p₀
  | step {p q : Proc} {ev : Event} : Run kend P p₀ p → P p ev → Step kend p ev q → Run kend P p₀ q

/-- Where nothing behind the size is left, all bytes up to a page behind are known. -/
theorem Clear.of_bytes {q : Proc} (hc : Consistent kend q) (h : Clear p)
    (hle : q.sz = p.sz) (hbytes : ∀ va, va / PGSIZE < pages p.sz → q.vm.byte va = p.vm.byte va) : Clear q := by
  have hsz := hc.size
  intro va h₁ h₂
  rw [hle] at h₁ h₂ hsz
  rw [hbytes va, h va h₁ h₂]
  rw [PGROUNDUP_eq (le_of_lt hsz)] at h₂
  exact (Nat.div_lt_iff_lt_mul (by decide)).mpr h₂

theorem store_pte (p : Proc) (va : Nat) (b : UInt8) (x : Nat) : (store p va b).vm.pte x = p.vm.pte x := by
  simp only [store]
  split
  · rfl
  · split <;> rfl

theorem store_sz (p : Proc) (va : Nat) (b : UInt8) : (store p va b).sz = p.sz := by
  simp only [store]
  split
  · rfl
  · split <;> rfl

theorem store_consistent (hc : Consistent kend p) (va : Nat) (b : UInt8) : Consistent kend (store p va b) := by
  have hpage : ∀ k, (store p va b).vm.page k = p.vm.page k := fun k => store_pte p va b _
  refine ⟨?_, ?_, ?_, ?_⟩
  · rw [store_sz]
    exact hc.size
  · intro x hx
    rw [store_pte, store_sz]
    exact hc.present x hx
  · intro k hk e he
    rw [store_sz] at hk
    exact hc.backed k hk e (hpage k ▸ he)
  · intro j hj k hk e e' he he'
    rw [store_sz] at hj hk
    exact hc.apart j hj k hk e e' (hpage j ▸ he) (hpage k ▸ he')

/-- A store changes its own byte only. -/
theorem store_byte (hc : Consistent kend p) {va x : Nat} (b : UInt8) (hva : va < KERNBASE) (hx : x < KERNBASE) :
    (store p va b).vm.byte x = p.vm.byte x ∨ (x = va ∧ (store p va b).vm.byte x = some b) := by
  simp only [store]
  cases hpva : p.vm.pte va with
  | none => exact .inl rfl
  | some e =>
    dsimp only
    split_ifs with hperm
    · cases hpx : p.vm.pte x with
      | none =>
        refine .inl ?_
        show (p.vm.pte x).map _ = (p.vm.pte x).map _
        rw [hpx]
        rfl
      | some e' =>
        have hbyte : ∀ mem : Nat → Nat → UInt8, Vm.byte { p.vm with mem := mem } x = some (mem e'.pa (x % PGSIZE)) := by
          intro mem
          show (p.vm.pte x).map _ = _
          rw [hpx]
          rfl
        have hold : p.vm.byte x = some (p.vm.mem e'.pa (x % PGSIZE)) := hbyte p.vm.mem
        rw [hbyte, hold]
        by_cases hpa : e'.pa = e.pa
        · -- the same memory is the same page
          have hsame : x / PGSIZE = va / PGSIZE := by
            have hin : ∀ y < KERNBASE, ∀ e'', p.vm.pte y = some e'' → y / PGSIZE < pages p.sz := by
              intro y hy e'' he''
              refine (hc.page_isSome (by simp only [PGSIZE, KERNBASE] at hy ⊢; omega)).mp ?_
              rw [← p.vm.pte_eq_page, he'']
              rfl
            refine hc.apart _ (hin x hx e' hpx) _ (hin va hva e hpva) e' e ?_ ?_ hpa
            · rw [← p.vm.pte_eq_page, hpx]
            · rw [← p.vm.pte_eq_page, hpva]
          by_cases hoff : x % PGSIZE = va % PGSIZE
          · refine .inr ⟨?_, ?_⟩
            · rw [← Nat.div_add_mod x PGSIZE, ← Nat.div_add_mod va PGSIZE, hsame, hoff]
            · rw [hpa, hoff, update_self, update_self]
          · refine .inl ?_
            rw [hpa, update_self, update_of_ne hoff]
        · refine .inl ?_
          rw [update_of_ne hpa]
    · exact .inl rfl

theorem PGROUNDUP_le_user {sz : Nat} (h : sz ≤ KERNBASE) : PGROUNDUP sz ≤ KERNBASE := by
  simp only [PGROUNDUP, PGSIZE, KERNBASE] at h ⊢
  omega

theorem Clear.store (hc : Consistent kend p) (h : Clear p) {va : Nat} {b : UInt8} (hva : va < KERNBASE)
    (htidy : va < p.sz ∨ b = 0) : Clear (store p va b) := by
  intro x h₁ h₂
  rw [store_sz] at h₁ h₂
  have hmax := PGROUNDUP_le_user (le_of_lt hc.size)
  rcases store_byte hc b hva (by omega : x < KERNBASE) with heq | ⟨heq, hb⟩
  · rw [heq]
    exact h x h₁ h₂
  · rcases htidy with hlt | rfl
    · omega
    · exact hb

/-- **A tidy `growproc`** keeps the invariant, and what a successful one adds reads as 0. -/
theorem Clear.growproc {r : Int} (hc : Consistent kend p) (hf : Fresh kend p sup) (h : Clear p)
    (htidy : Tidy p (.sbrk sup n)) (hrun : growproc kend sup n p = .ok (r, q)) : (Consistent kend q ∧ Clear q) ∧
      (r = 0 → ∀ va : Nat, p.sz ≤ va → va < p.sz + n.toInt → q.vm.byte va = some 0) := by
  have hsz := hc.size
  obtain ⟨hcut, hall, htabs⟩ := htidy
  rcases Int.lt_trichotomy n.toInt 0 with hneg | hzero | hpos
  · refine ⟨?_, fun _ va h₁ h₂ => absurd h₂ (by omega)⟩
    rcases lt_trichotomy (-n.toInt) p.sz with hlt | heq | hgt
    · have hshr : ∃ q, Xv6Vm.growproc kend sup n p = .ok (0, q) ∧ (q.sz : Int) = p.sz + n.toInt ∧
          Consistent kend q ∧ ∀ va, va / PGSIZE < pages q.sz → q.vm.byte va = p.vm.byte va :=
        growproc_shrinks hc hneg hlt
      obtain ⟨q', hrun', hsize, hc', hbytes⟩ := hshr
      rw [hrun'] at hrun
      cases hrun
      refine ⟨hc', fun va h₁ h₂ => ?_⟩
      have hnew := newSize_of_neg hsz hneg (le_of_lt hlt)
      have hqs : q.sz = newSize p.sz n := by omega
      have hin : va / PGSIZE < pages q.sz := by
        rw [PGROUNDUP_eq (le_of_lt hc'.size)] at h₂
        exact (Nat.div_lt_iff_lt_mul (by decide)).mpr h₂
      rw [hbytes va hin]
      by_cases hva : va < p.sz
      · exact hcut hneg hlt va (by omega) hva (hqs ▸ h₂)
      · refine h va (by omega) (lt_of_lt_of_le h₂ ?_)
        rw [PGROUNDUP_eq (le_of_lt hc'.size), PGROUNDUP_eq (le_of_lt hsz)]
        exact Nat.mul_le_mul_right _ (pages_mono (by omega))
    · omega
    · rw [growproc_wrap hsz hgt] at hrun
      split at hrun
      · cases hrun
        exact ⟨hc, h⟩
      · cases hrun
        exact ⟨hc, h⟩
  · rw [growproc_zero hzero] at hrun
    cases hrun
    exact ⟨⟨hc, h⟩, fun _ va h₁ h₂ => absurd h₂ (by omega)⟩
  · by_cases hbig : p.sz + n.toInt < KERNBASE
    · have hnew := newSize_of_nonneg hsz (le_of_lt hpos)
      have hle : p.sz ≤ newSize p.sz n := by omega
      have hlt' : newSize p.sz n < KERNBASE := by omega
      have hmax : pages (newSize p.sz n) ≤ 524288 := pages_le_user (le_of_lt hlt')
      obtain ⟨m, vm₁, hstops, hm, ⟨hmeq, hrun'⟩ | ⟨hmlt, vm₂, hrun', hrel⟩⟩ :=
        growproc_grows hc hf hpos hbig
      · rw [hrun'] at hrun
        cases hrun
        have htab := htabs hpos hbig m hstops
        rw [if_pos hmeq, hmeq] at htab
        rw [hmeq] at hm
        obtain ⟨hc', hkept, hzero⟩ := hc.grown hf hle hlt' hm htab
        -- up to the end of the last page the old bytes, from there on the new ones
        have hbytes : ∀ va, p.sz ≤ va → va / PGSIZE < pages (newSize p.sz n) → vm₁.byte va = some 0 := by
          intro va h₁ h₂
          by_cases hlo : va / PGSIZE < pages p.sz
          · rw [hkept va hlo]
            refine h va h₁ ?_
            rw [PGROUNDUP_eq (le_of_lt hsz)]
            exact (Nat.div_lt_iff_lt_mul (by decide)).mp hlo
          · exact hzero va (by omega) h₂
        refine ⟨⟨hc', fun va h₁ h₂ => hbytes va (le_trans hle h₁) ?_⟩,
          fun _ va h₁ h₂ => hbytes va h₁ (div_lt_pages (by omega))⟩
        rw [PGROUNDUP_eq (le_of_lt hlt')] at h₂
        exact (Nat.div_lt_iff_lt_mul (by decide)).mpr h₂
      · rw [hrun'] at hrun
        cases hrun
        have hback := htabs hpos hbig m hstops
        rw [if_neg (by omega)] at hback
        obtain ⟨hc', hkept⟩ := hc.refused hf hmax (le_of_lt hmlt) hm hrel hback
        exact ⟨⟨hc', Clear.of_bytes hc' h rfl hkept⟩, fun hr => absurd hr (by decide)⟩
    · rw [growproc_beyond hsz hpos (by omega)] at hrun
      cases hrun
      exact ⟨⟨hc, h⟩, fun hr => absurd hr (by decide)⟩

theorem Run.clear {p₀ : Proc} (hc : Consistent kend p₀) (hclear : Clear p₀) (hrun : Run kend Tidy p₀ p) :
    Consistent kend p ∧ Clear p := by
  induction hrun with
  | start => exact ⟨hc, hclear⟩
  | step _ htidy hstep ih =>
    cases hstep with
    | sbrk hf h => exact (ih.2.growproc ih.1 hf htidy h).1
    | store va b hva => exact ⟨store_consistent ih.1 va b, ih.2.store ih.1 hva htidy⟩

/-- **Memory obtained by `sbrk` is zero** in every run of tidy steps: whatever the process has done before, the
    bytes that a successful call adds read as 0. -/
theorem sbrk_reads_zero (kend : Nat) (p₀ p q : Proc) (sup : Supply) (n : Int32)
    (hc : Consistent kend p₀) (hclear : Clear p₀) (hrun : Run kend Tidy p₀ p) (hf : Fresh kend p sup)
    (htidy : Tidy p (.sbrk sup n)) (hgrow : growproc kend sup n p = .ok (0, q)) :
    ∀ va : Nat, p.sz ≤ va → va < p.sz + n.toInt → q.vm.byte va = some 0 := by
  obtain ⟨hc', hclear'⟩ := hrun.clear hc hclear
  exact (hclear'.growproc hc' hf htidy hgrow).2 rfl

/-- A size that moves within the last page moves alone. -/
theorem growproc_in_page (hsz : p.sz < KERNBASE) (hpos : 0 < newSize p.sz n) (hlt : newSize p.sz n < KERNBASE)
    (hpages : pages (newSize p.sz n) = pages p.sz)
    (hdir : 0 < n.toInt ∧ p.sz ≤ newSize p.sz n ∨ n.toInt < 0 ∧ newSize p.sz n < p.sz) :
    growproc kend sup n p = .ok (0, ⟨newSize p.sz n, p.vm⟩) := by
  have hround : ∀ sz, pages sz = pages p.sz → ¬ pages p.sz * PGSIZE < sz := by
    intro sz heq h
    rw [← heq] at h
    exact absurd (lt_pages_iff.mpr h) (lt_irrefl _)
  rcases hdir with ⟨hn, hle⟩ | ⟨hn, hl⟩
  · rw [growproc_pos hn (show allocuvm kend sup p.sz (newSize p.sz n) p.vm = .ok (newSize p.sz n, p.vm) from ?_)]
    · rw [if_neg (by omega)]
    · rw [allocuvm, if_neg (by omega), if_neg (by omega), allocuvmLoop, PGROUNDUP_eq (le_of_lt hsz),
        if_neg (hround _ hpages)]
  · rw [growproc_neg hn (show deallocuvm kend p.sz (newSize p.sz n) p.vm = .ok (newSize p.sz n, p.vm) from ?_)]
    · rw [if_neg (by omega)]
    · rw [deallocuvm, if_neg (by omega), deallocuvmLoop, PGROUNDUP_eq (le_of_lt hlt), hpages, if_neg (hround _ rfl)]

theorem store_byte_self {va : Nat} {e : Pte} (b : UInt8) (hpte : p.vm.pte va = some e)
    (hperm : e.perm &&& (PTE_W ||| PTE_U) = PTE_W ||| PTE_U) : (store p va b).vm.byte va = some b := by
  have hsame := store_pte p va b va
  have hmem : (store p va b).vm.mem e.pa (va % PGSIZE) = b := by
    simp only [store, hpte, if_pos hperm, update_self]
  rw [Vm.byte, hsame, hpte]
  exact congrArg some hmem

theorem small_pte {va : Nat} (hva : va < 4096) : small.vm.pte va = some ⟨0x400000, 6⟩ := by
  rw [small, onePage_pte, if_pos]
  simp only [PDX, PTX]
  omega

theorem sbrk_reads_zero_small :
    ∃ p q, Run 0x200000 Tidy small p ∧ growproc 0x200000 noPages 50 p = .ok (0, q) ∧ q.vm.byte 4010 = some 0 := by
  have hclear : Clear small := by
    intro va h₁ h₂
    have : small.sz = PGROUNDUP small.sz := by decide
    omega
  have hstore : Tidy small (.store 10 7) := .inl (by decide)
  have hrun₁ : Run 0x200000 Tidy small (store small 10 7) :=
    .step .start hstore (.store 10 7 (by decide))
  have hshrink : growproc 0x200000 noPages (-96) (store small 10 7) = .ok (0, ⟨4000, (store small 10 7).vm⟩) :=
    growproc_in_page (by decide) (by decide) (by decide) (by decide) (.inr ⟨by decide, by decide⟩)
  have hgrow : growproc 0x200000 noPages 50 ⟨4000, (store small 10 7).vm⟩
      = .ok (0, ⟨4050, (store small 10 7).vm⟩) :=
    growproc_in_page (by show 4000 < KERNBASE; decide) (by show 0 < newSize 4000 50; decide)
      (by show newSize 4000 50 < KERNBASE; decide) (by show pages (newSize 4000 50) = pages 4000; decide)
      (.inl ⟨by decide, by show 4000 ≤ newSize 4000 50; decide⟩)
  have hcut : Tidy (store small 10 7) (.sbrk noPages (-96)) := by
    refine ⟨fun _ _ va h₁ h₂ _ => ?_, fun h => absurd h (by decide), fun h => absurd h (by decide)⟩
    have hlow : (4000 : Int) ≤ va := h₁
    have hhigh : va < 4096 := h₂
    rcases store_byte small_consistent 7 (show 10 < KERNBASE by decide) (by simp only [KERNBASE]; omega : va < KERNBASE)
      with heq | ⟨heq, -⟩
    · rw [heq, Vm.byte, small_pte hhigh]
      rfl
    · omega
  have hrun₂ : Run 0x200000 Tidy small ⟨4000, (store small 10 7).vm⟩ :=
    hrun₁.step hcut (.sbrk (noPages_fresh _) hshrink)
  have hlast : Tidy ⟨4000, (store small 10 7).vm⟩ (.sbrk noPages 50) := by
    refine ⟨fun h => absurd h (by decide), fun h => absurd h (by decide), fun _ _ m hm => ?_⟩
    have h₁ : 1 ≤ m := hm.above
    have h₂ : m ≤ 1 := hm.below
    have hone : m = 1 := by omega
    rw [if_pos (show m = pages (newSize 4000 50) from hone)]
    intro k hk hlt
    have hk' : 1 ≤ k := hk
    omega
  exact ⟨_, _, hrun₂, hgrow, sbrk_reads_zero 0x200000 small _ _ noPages 50 small_consistent hclear hrun₂
    (noPages_fresh _) hlast hgrow 4010 (by decide) (by decide)⟩

/-- A byte stored at 4050 of a page of 4096 bytes is still there after the process has given up the last 96
    bytes and taken them again. -/
theorem sbrk_stale_byte : ∃ p q, Run 0x200000 (fun _ _ => True) small p ∧ growproc 0x200000 noPages 96 p = .ok (0, q) ∧
      p.sz ≤ 4050 ∧ 4050 < q.sz ∧ q.vm.byte 4050 ≠ some 0 := by
  have hrun₁ : Run 0x200000 (fun _ _ => True) small (store small 4050 7) :=
    .step .start trivial (.store 4050 7 (by decide))
  have hshrink : growproc 0x200000 noPages (-96) (store small 4050 7) = .ok (0, ⟨4000, (store small 4050 7).vm⟩) :=
    growproc_in_page (by decide) (by decide) (by decide) (by decide) (.inr ⟨by decide, by decide⟩)
  have hgrow : growproc 0x200000 noPages 96 ⟨4000, (store small 4050 7).vm⟩
      = .ok (0, ⟨4096, (store small 4050 7).vm⟩) :=
    growproc_in_page (by show 4000 < KERNBASE; decide) (by show 0 < newSize 4000 96; decide)
      (by show newSize 4000 96 < KERNBASE; decide) (by show pages (newSize 4000 96) = pages 4000; decide)
      (.inl ⟨by decide, by show 4000 ≤ newSize 4000 96; decide⟩)
  refine ⟨_, _, hrun₁.step trivial (.sbrk (noPages_fresh _) hshrink), hgrow, by decide, by decide, ?_⟩
  have hbyte : (store small 4050 7).vm.byte 4050 = some 7 :=
    store_byte_self 7 (small_pte (by decide)) (by decide)
  decide

end Xv6Vm
