import Xv6.VmCodeProofs

/-!
# `vm.c` — `copyout`

`copyout` translates the pages of its range one after the other with `uva2ka` and stores into the memory behind
them. Addresses are 32 bits and wrap. Two addresses may lead to the same byte of memory; the later store counts
then.

`uva2ka` does not compare the result of `walkpgdir` with 0. Where the page table is missing it reads its entry
at address 0 of the current address space: `zero` is the word there, `none` if nothing is mapped there.
-/

namespace Xv6Vm

open Function Option

/-- `uva2ka`: the physical page, `none` for 0. -/
def uva2ka (zero : Option UInt32) (vm : Vm) (uva : Nat) : Except String (Option Nat) :=
  match walkpgdir vm uva false none with
  | (true, _) =>
    match vm.pte uva with
    | none => .ok none
    | some e => .ok (if e.perm &&& PTE_U = 0 then none else some e.pa)
  | (false, _) =>
    match zero with
    | none => .error "trap"
    | some w => .ok (if w &&& 1 = 0 ∨ w &&& 4 = 0 then none else some (PGROUNDDOWN w.toNat))

/-- `memmove` of `n` bytes to the offset `o` of a page. -/
def Vm.store (vm : Vm) (pa o n : Nat) (src : Nat → UInt8) : Vm :=
  { vm with mem := update vm.mem pa fun a => if o ≤ a ∧ a < o + n then src (a - o) else vm.mem pa a }

/-- The loop of `copyout`: `len` bytes are left, from `src`. -/
def copyoutLoop (zero : Option UInt32) (va len : Nat) (src : Nat → UInt8) (vm : Vm) : Except String (Int × Vm) :=
  if len = 0 then .ok (0, vm)
  else
    let va0 := PGROUNDDOWN va
    match uva2ka zero vm va0 with
    | .error msg => .error msg
    | .ok none => .ok (-1, vm)
    | .ok (some pa0) =>
      let n := min (PGSIZE - (va - va0)) len
      copyoutLoop zero ((va0 + PGSIZE) % 2 ^ 32) (len - n) (fun i => src (n + i)) (vm.store pa0 (va - va0) n src)
termination_by len
decreasing_by simp only [PGROUNDDOWN, PGSIZE]; omega

/-- `copyout` -/
def copyout (zero : Option UInt32) (vm : Vm) (va : UInt32) (src : Nat → UInt8) (len : UInt32) :
    Except String (Int × Vm) :=
  copyoutLoop zero va.toNat len.toNat src vm

/-! ## Bytes of the range -/

/-- Byte `i` of a range that starts at `va`. -/
def wrap (va i : Nat) : Nat :=
  (va + i) % 2 ^ 32

namespace Vm

/-- The page that a user program reaches at `a`. -/
def user (vm : Vm) (a : Nat) : Option Nat :=
  (vm.pte a).bind fun e => if e.perm &&& PTE_U = 0 then none else some e.pa

/-- The entry of the page directory for `a` is present. -/
def hasTable (vm : Vm) (a : Nat) : Prop :=
  (vm.pgdir (PDX a)).isSome

/-- Where the byte at `a` stands: page and offset. -/
def spot (vm : Vm) (a : Nat) : Option (Nat × Nat) :=
  (vm.user a).map fun pa => (pa, a % PGSIZE)

theorem user_none {vm : Vm} {a : Nat} (h : ¬ vm.hasTable a) : vm.user a = none := by
  rw [hasTable, not_isSome_iff_eq_none] at h
  rw [user, pte, h, bind_none, bind_none]

/-- Addresses of one page. -/
theorem user_page {vm : Vm} {a b : Nat} (h : a / PGSIZE = b / PGSIZE) : vm.user a = vm.user b := by
  rw [user, user, pte_eq_page, pte_eq_page, h]

theorem hasTable_page {vm : Vm} {a b : Nat} (h : a / PGSIZE = b / PGSIZE) : vm.hasTable a ↔ vm.hasTable b := by
  have hd : PDX a = PDX b := by
    simp only [PDX, PGSIZE] at h ⊢
    omega
  rw [hasTable, hasTable, hd]

end Vm

theorem uva2ka_table {vm : Vm} {a : Nat} (h : vm.hasTable a) (zero : Option UInt32) :
    uva2ka zero vm a = .ok (vm.user a) := by
  obtain ⟨t, ht⟩ := isSome_iff_exists.mp h
  simp only [uva2ka, walkpgdir, ht, Vm.user]
  cases vm.pte a <;> rfl

theorem uva2ka_trap {vm : Vm} {a : Nat} (h : ¬ vm.hasTable a) : uva2ka none vm a = .error "trap" := by
  rw [Vm.hasTable, not_isSome_iff_eq_none] at h
  simp only [uva2ka, walkpgdir, h, Bool.false_eq_true, if_false]

/-- The first `len` bytes from `va` have been replaced by those of `src`, and nothing else has changed. -/
structure Replaced (vm vm' : Vm) (va len : Nat) (src : Nat → UInt8) : Prop where
  pgdir : vm'.pgdir = vm.pgdir
  frame : ∀ x, (∀ i < len, vm.spot (wrap va i) ≠ some x) → vm'.mem x.1 x.2 = vm.mem x.1 x.2
  bytes : ∀ i < len, ∀ x, vm.spot (wrap va i) = some x → (∀ j < len, i < j → vm.spot (wrap va j) ≠ some x) →
    vm'.mem x.1 x.2 = src i

theorem spot_congr {vm vm' : Vm} (h : vm'.pgdir = vm.pgdir) (a : Nat) : vm'.spot a = vm.spot a := by
  rw [Vm.spot, Vm.spot, Vm.user, Vm.user, Vm.pte, Vm.pte, h]

section
variable {va len n o : Nat} {src : Nat → UInt8} {vm vm' : Vm}

/-- Bytes before the end of the first page, `o` from its start. -/
theorem wrap_first (hva : va < 2 ^ 32) (ho : va - PGROUNDDOWN va = o) {i : Nat} (hi : i < PGSIZE - o) :
    wrap va i / PGSIZE = PGROUNDDOWN va / PGSIZE ∧ wrap va i % PGSIZE = o + i := by
  simp only [wrap, PGROUNDDOWN, PGSIZE] at ho hi ⊢
  omega

/-- Bytes behind the first page. -/
theorem wrap_next (ho : va - PGROUNDDOWN va = o) (i : Nat) :
    wrap ((PGROUNDDOWN va + PGSIZE) % 2 ^ 32) i = wrap va (PGSIZE - o + i) := by
  simp only [wrap, PGROUNDDOWN, PGSIZE] at ho ⊢
  omega

/-- The first page has been stored to, and then the rest. -/
theorem Replaced.cons (hva : va < 2 ^ 32) (ho : va - PGROUNDDOWN va = o) {pa : Nat}
    (hpa : vm.user (PGROUNDDOWN va) = some pa) (hn : min (PGSIZE - o) len = n)
    (h : Replaced (vm.store pa o n src) vm' ((PGROUNDDOWN va + PGSIZE) % 2 ^ 32) (len - n) fun i => src (n + i)) :
    Replaced vm vm' va len src := by
  have hspot : ∀ i < n, vm.spot (wrap va i) = some (pa, o + i) := by
    intro i hi
    obtain ⟨h1, h2⟩ := wrap_first hva ho (i := i) (by omega)
    rw [Vm.spot, Vm.user_page h1, hpa, map_some, h2]
  -- there is a second page only if the first one is used up to its end
  have hrest : ∀ i < len - n, (vm.store pa o n src).spot (wrap ((PGROUNDDOWN va + PGSIZE) % 2 ^ 32) i) =
      vm.spot (wrap va (n + i)) := by
    intro i hi
    have hend : PGSIZE - o = n := by omega
    rw [wrap_next ho, hend]
    exact spot_congr rfl _
  have hstore : ∀ x : Nat × Nat, (vm.store pa o n src).mem x.1 x.2 =
      if x.1 = pa ∧ o ≤ x.2 ∧ x.2 < o + n then src (x.2 - o) else vm.mem x.1 x.2 := by
    intro x
    simp only [Vm.store]
    by_cases hx : x.1 = pa
    · rw [hx, update_self]
      simp only [true_and]
    · rw [update_of_ne hx, if_neg fun hc => hx hc.1]
  refine ⟨h.pgdir, fun x hx => ?_, fun i hi x hxi hlast => ?_⟩
  · rw [h.frame x fun i hi => (hrest i hi).symm ▸ hx (n + i) (by omega), hstore, if_neg]
    rintro ⟨h1, h2, h3⟩
    refine hx (x.2 - o) (by omega) ?_
    rw [hspot _ (by omega), ← h1, Nat.add_sub_cancel' h2]
  · by_cases hin : i < n
    · obtain rfl := some.inj ((hspot i hin).symm.trans hxi)
      rw [h.frame _ fun j hj => (hrest j hj).symm ▸ hlast (n + j) (by omega) (by omega), hstore,
        if_pos ⟨rfl, Nat.le_add_right _ _, Nat.add_lt_add_left hin _⟩, Nat.add_sub_cancel_left]
    · obtain ⟨k, rfl⟩ := Nat.exists_eq_add_of_le (Nat.le_of_not_lt hin)
      refine h.bytes k (by omega) x (by rw [hrest _ (by omega), hxi]) fun j hj hij => ?_
      rw [hrest j hj]
      exact hlast (n + j) (by omega) (by omega)

/-- Every byte of the range is accessible and has been stored, or there is a first one that is not: with a page
    table the loop returns -1, without one it reads address 0. -/
theorem copyoutLoop_cases (zero : Option UInt32) : ∀ (len va : Nat) (src : Nat → UInt8) (vm : Vm), va < 2 ^ 32 →
    ((∀ i < len, vm.user (wrap va i) ≠ none) ∧
        ∃ vm', copyoutLoop zero va len src vm = .ok (0, vm') ∧ Replaced vm vm' va len src) ∨
      ∃ i < len, (∀ j < i, vm.user (wrap va j) ≠ none) ∧ vm.user (wrap va i) = none ∧
        (vm.hasTable (wrap va i) → ∃ vm', copyoutLoop zero va len src vm = .ok (-1, vm')) ∧
        (¬ vm.hasTable (wrap va i) → zero = none → copyoutLoop zero va len src vm = .error "trap") := by
  intro len
  induction len using Nat.strong_induction_on with
  | _ len ih =>
    intro va src vm hva
    rw [copyoutLoop]
    by_cases hlen : len = 0
    · subst hlen
      exact .inl ⟨nofun, vm, rfl, rfl, fun _ _ => rfl, nofun⟩
    rw [if_neg hlen]
    simp only
    generalize ho : va - PGROUNDDOWN va = o
    generalize hn : min (PGSIZE - o) len = n
    have hpos : 0 < PGSIZE - o := by
      simp only [PGROUNDDOWN, PGSIZE] at ho ⊢
      omega
    have hpage := fun {i : Nat} (hi : i < n) => (wrap_first hva ho (i := i) (by omega)).1
    by_cases ht : vm.hasTable (PGROUNDDOWN va)
    · rw [uva2ka_table ht]
      cases hpa : vm.user (PGROUNDDOWN va) with
      | none =>
        -- the page is not accessible
        refine .inr ⟨0, by omega, nofun, ?_, fun _ => ⟨vm, rfl⟩, fun h0 => ?_⟩
        · rw [Vm.user_page (hpage (by omega)), hpa]
        · exact absurd ((Vm.hasTable_page (hpage (by omega))).mpr ht) h0
      | some pa =>
        have hfirst : ∀ i < n, vm.user (wrap va i) ≠ none := by
          intro i hi
          rw [Vm.user_page (hpage hi), hpa]
          exact some_ne_none pa
        have hnext : ∀ i < len - n, wrap ((PGROUNDDOWN va + PGSIZE) % 2 ^ 32) i = wrap va (n + i) := by
          intro i hi
          have hend : PGSIZE - o = n := by omega
          rw [wrap_next ho, hend]
        -- bytes of the first page, and those of the rest
        have hsplit : ∀ m, (∀ i < m, i < len - n → vm.user (wrap ((PGROUNDDOWN va + PGSIZE) % 2 ^ 32) i) ≠ none) →
            ∀ i < n + m, i < len → vm.user (wrap va i) ≠ none := by
          intro m hm i hi hil
          by_cases hin : i < n
          · exact hfirst i hin
          · obtain ⟨k, rfl⟩ := Nat.exists_eq_add_of_le (Nat.le_of_not_lt hin)
            rw [← hnext k (by omega)]
            exact hm k (by omega) (by omega)
        rcases ih (len - n) (by omega) ((PGROUNDDOWN va + PGSIZE) % 2 ^ 32) (fun i => src (n + i))
          (vm.store pa o n src) (Nat.mod_lt _ (by decide)) with
          ⟨hall, vm', hrun, hrep⟩ | ⟨i, hi, hbefore, hnone, hminus, htrap⟩
        · refine .inl ⟨fun i hi => ?_, vm', hrun, hrep.cons hva ho hpa hn⟩
          exact hsplit (len - n) (fun k _ hk => hall k hk) i (by omega) hi
        · rw [hnext i hi] at hnone hminus htrap
          refine .inr ⟨n + i, by omega, fun j hj => ?_, hnone, hminus, htrap⟩
          exact hsplit i (fun k hk _ => hbefore k hk) j hj (by omega)
    · have h0 := mt (Vm.hasTable_page (hpage (i := 0) (by omega))).mp ht
      refine .inr ⟨0, by omega, nofun, Vm.user_none h0, fun h => absurd h h0, ?_⟩
      rintro - rfl
      rw [uva2ka_trap ht]

end

/-- Whatever stands at address 0, `copyout` returns 0 or -1, and 0 exactly if every byte of the range is accessible
    and the range does not wrap, and has then replaced these bytes and nothing else; this holds if and only if no
    page table is missing up to the first inaccessible byte, and a range that wraps has an inaccessible byte. -/
theorem copyout_exact_iff (vm : Vm) (va : UInt32) (src : Nat → UInt8) (len : UInt32) :
    (∀ zero, ∃ r vm', copyout zero vm va src len = .ok (r, vm') ∧ (r = 0 ∨ r = -1) ∧
        (r = 0 ↔ va.toNat + len.toNat ≤ 2 ^ 32 ∧ ∀ i < len.toNat, vm.user (wrap va.toNat i) ≠ none) ∧
        (r = 0 → Replaced vm vm' va.toNat len.toNat src)) ↔
      (∀ i < len.toNat, (∀ j < i, vm.user (wrap va.toNat j) ≠ none) → vm.hasTable (wrap va.toNat i)) ∧
        (2 ^ 32 < va.toNat + len.toNat → ∃ i < len.toNat, vm.user (wrap va.toNat i) = none) := by
  have hcases := fun zero => copyoutLoop_cases zero len.toNat va.toNat src vm va.toNat_lt
  constructor
  · intro h
    rcases hcases none with ⟨hall, vm', hrun, -⟩ | ⟨i, hi, hbefore, hnone, hminus, htrap⟩
    · refine ⟨fun i hi _ => by_contra fun ht => hall i hi (Vm.user_none ht), fun hwrap => ?_⟩
      obtain ⟨r, vm1, hrun1, -, hzero, -⟩ := h none
      cases hrun.symm.trans hrun1
      exact absurd (hzero.mp rfl).1 (not_le.mpr hwrap)
    · have ht : vm.hasTable (wrap va.toNat i) := by
        by_contra ht
        obtain ⟨r, vm1, hrun1, -⟩ := h none
        cases (htrap ht rfl).symm.trans hrun1
      refine ⟨fun j hj hj' => ?_, fun _ => ⟨i, hi, hnone⟩⟩
      rcases lt_trichotomy j i with hji | rfl | hji
      · exact by_contra fun ht' => hbefore j hji (Vm.user_none ht')
      · exact ht
      · exact absurd hnone (hj' i hji)
  · rintro ⟨htable, hwrap⟩ zero
    rcases hcases zero with ⟨hall, vm', hrun, hrep⟩ | ⟨i, hi, hbefore, hnone, hminus, -⟩
    · have hfits : va.toNat + len.toNat ≤ 2 ^ 32 := by
        by_contra hlt
        obtain ⟨i, hi, hnone⟩ := hwrap (not_le.mp hlt)
        exact hall i hi hnone
      exact ⟨0, vm', hrun, .inl rfl, iff_of_true rfl ⟨hfits, hall⟩, fun _ => hrep⟩
    · obtain ⟨vm', hrun⟩ := hminus (htable i hi hbefore)
      exact ⟨-1, vm', hrun, .inr rfl, iff_of_false (by decide) fun h => h.2 i hi hnone, nofun⟩

/-- An address space without page tables. -/
def bare : Vm :=
  ⟨fun _ => none, fun _ _ => 0, []⟩

/-- Without page tables the kernel traps, or with a word at address 0 that looks like a user page `copyout` returns
    0 and has stored into a page that no entry names. -/
theorem copyout_follows_absent : copyout none bare 0x2000 (fun _ => 7) 1 = .error "trap" ∧
      ∃ vm', copyout (some 0x5007) bare 0x2000 (fun _ => 7) 1 = .ok (0, vm') ∧ vm'.mem 0x5000 0 = 7 := by
  constructor
  · rw [copyout, copyoutLoop]
    rfl
  · refine ⟨bare.store 0x5000 0 1 fun _ => 7, ?_, rfl⟩
    have hpage : uva2ka (some 0x5007) bare (PGROUNDDOWN (UInt32.toNat 0x2000)) = .ok (some 0x5000) := rfl
    rw [copyout, copyoutLoop, if_neg (by decide)]
    simp only [hpage]
    rw [copyoutLoop, if_pos (by decide)]
    simp [PGROUNDDOWN, PGSIZE]

end Xv6Vm
