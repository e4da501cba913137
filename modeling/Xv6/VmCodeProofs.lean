import Mathlib

/-!
# `vm.c`, `proc.c` — the user part of an address space

A page directory with its page tables, the memory behind the pages, and the functions that change them:
`walkpgdir`, `mappages`, `allocuvm`, `deallocuvm`, `growproc` and `sys_sbrk`.

Addresses and sizes are natural numbers. `PGROUNDUP` and the sum of `growproc` are taken modulo `2 ^ 32` as in
the code; the loops stay below `KERNBASE` plus the 4 MB of one page table, where nothing wraps. An entry that
is not present is `none`. What `kalloc` returns is open: a `Supply` says, for every page of the range that is
being allocated, which page its own request and the request for its page table get.
-/

namespace Xv6Vm

open Function Option

def PGSIZE : Nat := 4096

/-- Entries of a page table. -/
def NPTENTRIES : Nat := 1024

/-- First kernel virtual address. -/
def KERNBASE : Nat := 0x80000000

/-- Top of the physical memory. -/
def PHYSTOP : Nat := 0xE000000

def PTE_W : Nat := 2

def PTE_U : Nat := 4

/-- Index of an address in the page directory. -/
def PDX (va : Nat) : Nat :=
  va / 4194304 % 1024

/-- Index of an address in its page table. -/
def PTX (va : Nat) : Nat :=
  va / 4096 % 1024

def PGROUNDUP (sz : Nat) : Nat :=
  (sz + PGSIZE - 1) % 2 ^ 32 / PGSIZE * PGSIZE

def PGROUNDDOWN (a : Nat) : Nat :=
  a / PGSIZE * PGSIZE

/-- A present entry of a page table: the physical page and the permissions. -/
structure Pte where
  pa : Nat
  perm : Nat
deriving DecidableEq

/-- A page table: the physical page it stands in and its present entries. -/
structure Table where
  pa : Nat
  entry : Nat → Option Pte

/-- An address space, the memory by physical page and offset, and the pages given to `kfree` so far. -/
structure Vm where
  pgdir : Nat → Option Table
  mem : Nat → Nat → UInt8
  freed : List Nat

namespace Vm

/-- The entry that maps `va`. -/
def pte (vm : Vm) (va : Nat) : Option Pte :=
  (vm.pgdir (PDX va)).bind fun t => t.entry (PTX va)

/-- `*pte = e` for the entry of `va`, where the page table exists. -/
def setPte (vm : Vm) (va : Nat) (e : Option Pte) : Vm :=
  { vm with pgdir := fun d =>
      if d = PDX va then (vm.pgdir d).map fun t => { t with entry := update t.entry (PTX va) e }
      else vm.pgdir d }

/-- The byte a program reads at `va`; `none` is a page fault. -/
def byte (vm : Vm) (va : Nat) : Option UInt8 :=
  (vm.pte va).map fun e => vm.mem e.pa (va % PGSIZE)

end Vm

/-! ## The allocator -/

/-- The pages `kfree` takes: page-aligned, behind the kernel's `end` and below `PHYSTOP`. -/
def Allocatable (kend pa : Nat) : Prop :=
  pa % PGSIZE = 0 ∧ kend ≤ pa ∧ pa < PHYSTOP

instance (kend pa : Nat) : Decidable (Allocatable kend pa) :=
  inferInstanceAs (Decidable (_ ∧ _ ∧ _))

/-- `kfree`: fills the page with junk and puts it on the free list. -/
def kfree (kend : Nat) (vm : Vm) (pa : Nat) : Except String Vm :=
  if Allocatable kend pa then
    .ok { vm with mem := update vm.mem pa fun _ => 1, freed := vm.freed ++ [pa] }
  else .error "kfree"

/-- What `kalloc` returns while a range is allocated: for the page at an address, and for the page table if
    that one is missing. -/
structure Supply where
  data : Nat → Option Nat
  table : Nat → Option Nat

/-! ## Page tables -/

/-- `walkpgdir`: is there an entry for `va`? `page` is what `kalloc` returns if it is called. -/
def walkpgdir (vm : Vm) (va : Nat) (alloc : Bool) (page : Option Nat) : Bool × Vm :=
  match vm.pgdir (PDX va) with
  | some _ => (true, vm)
  | none =>
    if alloc then
      match page with
      | none => (false, vm)
      | some pa => (true, { vm with pgdir := update vm.pgdir (PDX va) (some ⟨pa, fun _ => none⟩) })
    else (false, vm)

/-- The loop of `mappages` over the pages that are left. -/
def mappagesLoop (table : Nat → Option Nat) (perm : Nat) :
    (pages a pa : Nat) → Vm → Except String (Int × Vm)
  | 0, _, _, vm => .ok (0, vm)
  | k + 1, a, pa, vm =>
    match walkpgdir vm a true (table a) with
    | (false, vm) => .ok (-1, vm)
    | (true, vm) =>
      if (vm.pte a).isSome then .error "remap"
      else mappagesLoop table perm k (a + PGSIZE) (pa + PGSIZE) (vm.setPte a (some ⟨pa, perm⟩))

def mappages (table : Nat → Option Nat) (vm : Vm) (va size pa perm : Nat) : Except String (Int × Vm) :=
  let a := PGROUNDDOWN va
  let last := PGROUNDDOWN (va + size - 1)
  mappagesLoop table perm ((last - a) / PGSIZE + 1) a pa vm

/-! ## Growing and shrinking -/

/-- The loop of `deallocuvm`. -/
def deallocuvmLoop (kend oldsz a : Nat) (vm : Vm) : Except String Vm :=
  if a < oldsz then
    match walkpgdir vm a false none with
    | (false, vm) =>
      -- `a += (NPTENTRIES - 1) * PGSIZE`, and the step of the loop
      deallocuvmLoop kend oldsz (a + (NPTENTRIES - 1) * PGSIZE + PGSIZE) vm
    | (true, vm) =>
      match vm.pte a with
      | none => deallocuvmLoop kend oldsz (a + PGSIZE) vm
      | some e =>
        if e.pa = 0 then .error "kfree"
        else
          match kfree kend vm e.pa with
          | .error msg => .error msg
          | .ok vm => deallocuvmLoop kend oldsz (a + PGSIZE) (vm.setPte a none)
  else .ok vm
termination_by oldsz - a
decreasing_by all_goals simp only [NPTENTRIES, PGSIZE]; omega

/-- `deallocuvm`: the new size and the address space. -/
def deallocuvm (kend oldsz newsz : Nat) (vm : Vm) : Except String (Nat × Vm) :=
  if oldsz ≤ newsz then .ok (oldsz, vm)
  else
    match deallocuvmLoop kend oldsz (PGROUNDUP newsz) vm with
    | .error msg => .error msg
    | .ok vm => .ok (newsz, vm)

/-- The loop of `allocuvm`. -/
def allocuvmLoop (kend : Nat) (sup : Supply) (oldsz newsz a : Nat) (vm : Vm) : Except String (Nat × Vm) :=
  if a < newsz then
    match sup.data a with
    | none =>
      match deallocuvm kend newsz oldsz vm with
      | .error msg => .error msg
      | .ok x => .ok (0, x.2)
    | some pa =>
      -- the result of `mappages` is not looked at
      match mappages sup.table { vm with mem := update vm.mem pa fun _ => 0 } a PGSIZE pa
          (PTE_W ||| PTE_U) with
      | .error msg => .error msg
      | .ok x => allocuvmLoop kend sup oldsz newsz (a + PGSIZE) x.2
  else .ok (newsz, vm)
termination_by newsz - a
decreasing_by simp only [PGSIZE]; omega

/-- `allocuvm`: the new size, 0 on error. -/
def allocuvm (kend : Nat) (sup : Supply) (oldsz newsz : Nat) (vm : Vm) : Except String (Nat × Vm) :=
  if KERNBASE ≤ newsz then .ok (0, vm)
  else if newsz < oldsz then .ok (oldsz, vm)
  else allocuvmLoop kend sup oldsz newsz (PGROUNDUP oldsz) vm

/-- The size of a process and its address space. -/
structure Proc where
  sz : Nat
  vm : Vm

/-- `sz + n` as an unsigned number. -/
def newSize (sz : Nat) (n : Int32) : Nat :=
  ((sz + n.toInt) % 2 ^ 32).toNat

/-- `growproc`. `switchuvm` loads the same page directory again. -/
def growproc (kend : Nat) (sup : Supply) (n : Int32) (p : Proc) : Except String (Int × Proc) :=
  let change : Except String (Nat × Vm) :=
    if 0 < n.toInt then allocuvm kend sup p.sz (newSize p.sz n) p.vm
    else if n.toInt < 0 then deallocuvm kend p.sz (newSize p.sz n) p.vm
    else .ok (p.sz, p.vm)
  match change with
  | .error msg => .error msg
  | .ok (sz, vm) =>
    if n.toInt ≠ 0 ∧ sz = 0 then .ok (-1, ⟨p.sz, vm⟩)
    else .ok (0, ⟨sz, vm⟩)

/-! ## Pages by number -/

/-- The number of pages that hold `sz` bytes. -/
def pages (sz : Nat) : Nat :=
  (sz + (PGSIZE - 1)) / PGSIZE

theorem lt_pages_iff {k sz : Nat} : k < pages sz ↔ k * PGSIZE < sz := by
  simp only [pages, PGSIZE]
  omega

theorem pages_mono {a b : Nat} (h : a ≤ b) : pages a ≤ pages b := by
  simp only [pages, PGSIZE]
  omega

theorem pages_le_user {sz : Nat} (h : sz ≤ KERNBASE) : pages sz ≤ 524288 := by
  simp only [pages, PGSIZE, KERNBASE] at h ⊢
  omega

theorem PGROUNDUP_eq {sz : Nat} (h : sz ≤ KERNBASE) : PGROUNDUP sz = pages sz * PGSIZE := by
  simp only [PGROUNDUP, pages, PGSIZE, KERNBASE] at h ⊢
  omega

@[simp] theorem PDX_page (k : Nat) : PDX (k * PGSIZE) = k / 1024 % 1024 := by
  simp only [PDX, PGSIZE]
  omega

@[simp] theorem PTX_page (k : Nat) : PTX (k * PGSIZE) = k % 1024 := by
  simp only [PTX, PGSIZE]
  omega

namespace Vm

/-- The entry of page `k`. -/
def page (vm : Vm) (k : Nat) : Option Pte :=
  vm.pte (k * PGSIZE)

/-- The page table of page `k` exists. -/
def tabled (vm : Vm) (k : Nat) : Bool :=
  (vm.pgdir (k / 1024 % 1024)).isSome

theorem pte_eq_page (vm : Vm) (va : Nat) : vm.pte va = vm.page (va / PGSIZE) := by
  have hd : PDX (va / PGSIZE * PGSIZE) = PDX va := by simp only [PDX, PGSIZE]; omega
  have ht : PTX (va / PGSIZE * PGSIZE) = PTX va := by simp only [PTX, PGSIZE]; omega
  rw [page, pte, pte, hd, ht]

theorem page_eq_none_of_not_tabled {vm : Vm} {k : Nat} (h : vm.tabled k = false) : vm.page k = none := by
  simp only [tabled, isSome_eq_false_iff, isNone_iff_eq_none] at h
  rw [page, pte, PDX_page, h, bind_none]

theorem page_setPte {vm : Vm} {k j : Nat} (e : Option Pte) (hk : k < 1048576) (hj : j < 1048576)
    (ht : vm.tabled k = true) : (vm.setPte (k * PGSIZE) e).page j = if j = k then e else vm.page j := by
  obtain ⟨t, ht⟩ := isSome_iff_exists.mp ht
  simp only [page, pte, setPte, PDX_page, PTX_page]
  split
  · next hd =>
    rw [hd, ht]
    by_cases hp : j % 1024 = k % 1024
    · rw [if_pos (by omega)]
      simp [hp]
    · rw [if_neg (by omega)]
      simp [hp]
  · next hd =>
    rw [if_neg (fun h => hd (by rw [h]))]

end Vm

end Xv6Vm
