import Xv6.ExitStatusProofs

/-!
# Every child is handed over once

Whatever the interleaving of `fork`, `exit`, `wait` and `kill`: a process has a parent that is alive, `exit`
gives the children of a process to init before it becomes a zombie, and a zombie is taken by one `wait`, of the
process that forked it or of init after that one has exited. `wait` frees the kernel stack and the page table of
the child, which has both, and leaves none in the slot. A process does not sleep in `wait` while a child
of it is a zombie.
-/

namespace Xv6Proc

open Function List Option Event

/-! ## Parents -/

/-- Every process but init has a parent, and a parent is alive. -/
structure Family (initproc : Slot) (s : Sys) : Prop where
  root : Live (s.proc initproc)
  rootless : (s.proc initproc).parent = none
  alive : ∀ p q, (s.proc p).parent = some q → Live (s.proc q)
  has : ∀ p, p ≠ initproc → Live (s.proc p) ∨ (s.proc p).state = .zombie → ∃ q, (s.proc p).parent = some q
  self : ∀ p, (s.proc p).parent ≠ some p

/-- What is known of a slot from the place of the process that works on it. -/
structure Places (initproc : Slot) (s : Sys) : Prop where
  stays : s.place initproc ≠ .exiting
  empty : ∀ p, (s.proc p).state = .unused → (s.proc p).parent = none
  fresh : ∀ p np, s.place p = .taken np ∨ s.place p = .stacked np → (s.proc np).parent = none
  copied : ∀ p np, s.place p = .copied np → (s.proc np).parent = some p

section Family

variable {initproc : Slot} {s s' : Sys} {p np : Slot} {q : Proc}

theorem live_ne (hl : Live (s.proc p)) (hv : Vacant (s.proc np)) : p ≠ np := by
  rintro rfl
  exact hv.gone (.inl hl)

/-- One slot changes, and keeps its parent. -/
theorem parent_slot (h1 : s'.proc = update s.proc np q) (hq : q.parent = (s.proc np).parent) (c : Slot) :
    (s'.proc c).parent = (s.proc c).parent := by
  rw [h1]
  exact update_field Proc.parent hq c

/-- A slot without a running process changes. -/
theorem Family.slot (h : Family initproc s) (h1 : s'.proc = update s.proc np q) (hv : ¬ Live (s.proc np))
    (hpar : ∀ x, q.parent = some x → Live (s.proc x)) (hhas : Live q ∨ q.state = .zombie → ∃ x, q.parent = some x) :
    Family initproc s' := by
  have hne : ∀ c, Live (s.proc c) → c ≠ np := by
    rintro c hc rfl
    exact hv hc
  have hlive : ∀ c, Live (s.proc c) → Live (s'.proc c) := by
    intro c hc
    rw [h1, update_of_ne (hne c hc)]
    exact hc
  refine ⟨hlive _ h.root, ?_, fun c x hc => ?_, fun c hc hs => ?_, fun c hc => ?_⟩
  · rw [h1, update_of_ne (hne _ h.root)]
    exact h.rootless
  · rw [h1, update_apply] at hc
    split_ifs at hc
    · exact hlive x (hpar x hc)
    · exact hlive x (h.alive c x hc)
  · rw [h1, update_apply] at hs ⊢
    split_ifs at hs ⊢
    · exact hhas hs
    · exact h.has c hc hs
  · rw [h1, update_apply] at hc
    split_ifs at hc with hcn
    · exact hne c (hpar c hc) hcn
    · exact h.self c hc

/-- The slot stays without a process. -/
theorem Family.vacant (h : Family initproc s) (h1 : s'.proc = update s.proc np q)
    (hv : Vacant (s.proc np)) (hq : Vacant q) (hpar : ∀ x, q.parent = some x → Live (s.proc x)) : Family initproc s' :=
  h.slot h1 (fun hl => hv.gone (.inl hl)) hpar fun hs => absurd hs hq.gone

theorem moves_family (h : Family initproc s) (hpl : Places initproc s) (hem : Embryos s)
    (hm : Moves initproc s s') : Family initproc s' := by
  cases hm with
  | still hst _ =>
    have hq := hst.quiet
    refine ⟨(hq.live _).mpr h.root, (hq.parent _).trans h.rootless, fun c x hc => ?_, fun c hc hs => ?_, fun c hc => ?_⟩
    · exact (hq.live x).mpr (h.alive c x ((hq.parent c).symm.trans hc))
    · rw [hq.parent]
      refine h.has c hc ?_
      rcases hs with hs | hs
      · exact .inl ((hq.live c).mp hs)
      · exact .inr ((hq.dead (.inr (.inr rfl)) c).mp hs)
    · exact h.self c ((hq.parent c).symm.trans hc)
  | @take p np hr hp hf =>
    refine h.vacant rfl (.inl hf) (.inr rfl) fun x hx => ?_
    have hx' : (s.proc np).parent = some x := hx
    rw [hpl.empty np hf] at hx'
    cases hx'
  | @stack p np hr hp =>
    have he := hem.held p np (by rw [hp]; rfl)
    exact h.vacant rfl (.inr he) (.inr he) fun x hx => h.alive np x hx
  | @back p np hr hp =>
    have he := hem.held p np (by rcases hp with hp | hp <;> rw [hp] <;> rfl)
    exact h.vacant rfl (.inr he) (.inl rfl) fun x hx => h.alive np x hx
  | @copy p np hr hp =>
    have he := hem.held p np (by rw [hp]; rfl)
    refine h.vacant rfl (.inr he) (.inr he) fun x hx => ?_
    obtain rfl : p = x := some.inj hx
    exact .inr (.inr hr)
  | @born p np hr hp =>
    have he := hem.held p np (by rw [hp]; rfl)
    exact h.slot rfl (not_live _ _ he (.inr (.inl rfl))) (h.alive np) fun _ => ⟨p, hpl.copied p np hp⟩
  | @exit p hr hp =>
    have hx := exitEnd_exited initproc p s
    have hpi : p ≠ initproc := by
      rintro rfl
      exact hpl.stays hp
    have hlive : ∀ c, c ≠ p → Live (s.proc c) → Live ((exitEnd initproc p s).proc c) := by
      intro c hc hl
      rcases hx.state c hc with h1 | ⟨-, h2⟩
      · rw [Live, h1]; exact hl
      · exact h2
    refine ⟨hlive _ hpi.symm h.root, ?_, fun c x hc => ?_, fun c hc hs => ?_, fun c hc => ?_⟩
    · rw [hx.parent, h.rootless, if_neg (by rintro ⟨⟩)]
    · rw [hx.parent] at hc
      split at hc
      · rw [← some.inj hc]
        exact hlive _ hpi.symm h.root
      next hne => exact hlive x (fun heq => hne (heq ▸ hc)) (h.alive c x hc)
    · rw [hx.parent]
      split
      · exact ⟨_, rfl⟩
      · refine h.has c hc ?_
        by_cases hcp : c = p
        · exact .inl (hcp ▸ .inr (.inr hr))
        · rcases hx.state c hcp with h1 | ⟨h1, -⟩
          · rw [Live, h1] at hs
            exact hs
          · exact .inl h1
    · rw [hx.parent] at hc
      split at hc
      next hpar =>
        obtain rfl : initproc = c := some.inj hc
        rw [h.rootless] at hpar
        cases hpar
      · exact h.self c hc
  | @reap p c hr hc hz =>
    refine h.slot rfl (not_live _ _ hz (.inr (.inr rfl))) (by rintro _ ⟨⟩) fun hs => ?_
    exact absurd hs (Vacant.gone (.inl rfl))

/-- A process goes to a place outside `fork`. -/
theorem place_goto {place : Slot → Place} {d : Place} (hd : d.child = none) (c np : Slot)
    (h : (update place p d c).child = some np) : update place p d c = place c ∧ c ≠ p := by
  obtain ⟨hne, -⟩ := child_goto hd c np h
  exact ⟨update_of_ne hne _ _, hne⟩

/-- A process moves to `d`; the slots that other processes work on keep their parents. -/
theorem Places.goes (h : Places initproc s) {d : Place} (hd : d ≠ .exiting) (hplace : s'.place = update s.place p d)
    (hempty : ∀ c, (s'.proc c).state = .unused → (s'.proc c).parent = none)
    (hother : ∀ c x, c ≠ p → (s.place c).child = some x → (s'.proc x).parent = (s.proc x).parent)
    (hown : ∀ x, d.child = some x → (s'.proc x).parent = if d = .copied x then some p else none) :
    Places initproc s' := by
  have hat : ∀ c, s'.place c = if c = p then d else s.place c := fun c => by rw [hplace, update_apply]
  refine ⟨?_, hempty, fun c x hc => ?_, fun c x hc => ?_⟩
  · rw [hat]
    split
    · exact hd
    · exact h.stays
  · rw [hat] at hc
    split at hc
    · rcases hc with hc | hc <;> subst hc <;> exact hown x rfl
    next hcp =>
      rw [hother c x hcp (by rcases hc with hc | hc <;> rw [hc] <;> rfl)]
      exact h.fresh c x hc
  · rw [hat] at hc
    split at hc
    next hcp =>
      subst hc
      rw [hown x rfl, if_pos rfl, hcp]
    next hcp =>
      rw [hother c x hcp (by rw [hc]; rfl)]
      exact h.copied c x hc

/-- The unused slots after slot `np` has changed. -/
theorem Places.slot_empty (h : Places initproc s) (h1 : s'.proc = update s.proc np q)
    (hq : q.state = .unused → q.parent = none) (c : Slot) (hc : (s'.proc c).state = .unused) :
    (s'.proc c).parent = none := by
  rw [h1] at hc ⊢
  rw [update_apply] at hc ⊢
  split_ifs at hc ⊢
  · exact hq hc
  · exact h.empty c hc

theorem moves_places (h : Places initproc s) (hem : Embryos s) (hm : Moves initproc s s') : Places initproc s' := by
  cases hm with
  | still hst hi =>
    have hq := hst.quiet
    refine ⟨fun hx => h.stays (hi hx), fun c hc => ?_, fun c x hc => ?_, fun c x hc => ?_⟩
    · rw [hq.parent]
      exact h.empty c ((hq.dead (.inl rfl) c).mp hc)
    · rw [hq.parent]
      have hx : (s'.place c).child = some x := by rcases hc with hc | hc <;> rw [hc] <;> rfl
      rw [hst.place_child hx] at hc
      exact h.fresh c x hc
    · rw [hq.parent]
      have hx : (s'.place c).child = some x := by rw [hc]; rfl
      rw [hst.place_child hx] at hc
      exact h.copied c x hc
  | @take p np hr hp hu =>
    have hpar : ∀ c, ((takeSlot p np s).proc c).parent = (s.proc c).parent := parent_slot rfl rfl
    refine h.goes (d := .taken np) nofun rfl (h.slot_empty rfl nofun) (fun _ x _ _ => hpar x) fun x hx => ?_
    obtain rfl : np = x := some.inj hx
    rw [hpar, h.empty np hu, if_neg nofun]
  | @stack p np hr hp =>
    have hpar : ∀ c, ((allocStack p np true s).proc c).parent = (s.proc c).parent := parent_slot rfl rfl
    refine h.goes (d := .stacked np) nofun rfl (h.slot_empty rfl (h.empty np)) (fun _ x _ _ => hpar x)
      fun x hx => ?_
    obtain rfl : np = x := some.inj hx
    rw [hpar, h.fresh p np (.inl hp), if_neg nofun]
  | @back p np hr hp =>
    have hpar : ∀ c, ((giveBack p np s).proc c).parent = (s.proc c).parent := parent_slot rfl rfl
    exact h.goes (d := .user) nofun rfl (h.slot_empty rfl fun _ => h.fresh p np hp) (fun _ x _ _ => hpar x)
      nofun
  | @copy p np hr hp =>
    have he := hem.held p np (by rw [hp]; rfl)
    refine h.goes (d := .copied np) nofun rfl (h.slot_empty rfl fun hu => nomatch he.symm.trans hu)
      (fun c x hcp hc => ?_) fun x hx => ?_
    · -- another process works on another slot
      have hxn : x ≠ np := fun heq => hcp (hem.single c p np (heq ▸ hc) (by rw [hp]; rfl))
      exact congrArg Proc.parent (update_of_ne hxn _ _)
    · obtain rfl : np = x := some.inj hx
      show (update s.proc np _ np).parent = _
      rw [update_self, if_pos rfl]
  | @born p np hr hp =>
    have hpar : ∀ c, ((forkDone p np s).proc c).parent = (s.proc c).parent := parent_slot rfl rfl
    have h1 : Places initproc { forkDone p np s with place := update s.place p .user } :=
      h.goes (d := .user) nofun rfl (h.slot_empty rfl nofun) (fun _ x _ _ => hpar x) nofun
    exact h1.goes (d := .user) nofun rfl h1.empty (fun _ _ _ _ => rfl) nofun
  | @exit p hr hp =>
    have hx := exitEnd_exited initproc p s
    refine h.goes (d := .user) nofun rfl (fun c hc => ?_) (fun c x hcp hc => ?_) nofun
    · have hcp : c ≠ p := by
        rintro rfl
        cases hx.zombie.symm.trans hc
      have hnone : (s.proc c).parent = none := by
        rcases hx.state c hcp with h1 | ⟨-, h2⟩
        · exact h.empty c (h1.symm.trans hc)
        · exact absurd h2 (not_live _ _ hc (.inl rfl))
      rw [hx.parent, hnone, if_neg nofun]
    · -- the child of another process is not one of `p`
      rw [hx.parent, if_neg]
      intro heq
      cases hplace : s.place c with
      | taken y =>
        rw [hplace] at hc
        obtain rfl : y = x := some.inj hc
        cases (h.fresh c y (.inl hplace)).symm.trans heq
      | stacked y =>
        rw [hplace] at hc
        obtain rfl : y = x := some.inj hc
        cases (h.fresh c y (.inr hplace)).symm.trans heq
      | copied y =>
        rw [hplace] at hc
        obtain rfl : y = x := some.inj hc
        exact hcp (some.inj ((h.copied c y hplace).symm.trans heq))
      | _ => rw [hplace] at hc; cases hc
  | @reap p c hr hc hz =>
    refine h.goes (d := .user) nofun rfl (h.slot_empty rfl fun _ => rfl) (fun d x _ hd => ?_)
      nofun
    have hxc : x ≠ c := by
      rintro rfl
      cases hz.symm.trans (hem.held d x hd)
    exact congrArg Proc.parent (update_of_ne hxc _ _)

end Family

/-! ## Kernel stacks and page tables -/

/-- A process and a zombie have a kernel stack and a page table, and an unused slot has neither. -/
def PagesOk (q : Proc) : Prop :=
  (Live q ∨ q.state = .zombie → q.kstack = true ∧ q.pgdir = true) ∧
    (q.state = .unused → q.kstack = false ∧ q.pgdir = false)

/-- What the slot `q` of a child has when `fork` is at `d`. -/
def PlaceOk (d : Place) (q : Proc) : Prop :=
  match d with
  | .taken _ => q.kstack = false ∧ q.pgdir = false
  | .stacked _ => q.kstack = true ∧ q.pgdir = false
  | .copied _ => q.kstack = true ∧ q.pgdir = true
  | _ => True

structure Pages (s : Sys) : Prop where
  slots : ∀ p, PagesOk (s.proc p)
  held : ∀ p np, (s.place p).child = some np → PlaceOk (s.place p) (s.proc np)

section Pages

variable {initproc : Slot} {s s' : Sys} {p np : Slot} {q : Proc}

/-- One slot changes, and the place of the process that works on it. -/
theorem Pages.slot (h : Pages s) (h1 : s'.proc = update s.proc np q) (hq : PagesOk q)
    (hothers : ∀ c x, c ≠ p → (s'.place c).child = some x → s'.place c = s.place c ∧ x ≠ np)
    (hp : ∀ x, (s'.place p).child = some x → x = np ∧ PlaceOk (s'.place p) q) : Pages s' := by
  refine ⟨fun c => ?_, fun c x hc => ?_⟩
  · rw [h1, update_apply]
    split_ifs
    · exact hq
    · exact h.slots c
  · by_cases hcp : c = p
    · subst hcp
      obtain ⟨rfl, hok⟩ := hp x hc
      rw [h1, update_self]
      exact hok
    · obtain ⟨heq, hx⟩ := hothers c x hcp hc
      rw [heq] at hc ⊢
      rw [h1, update_of_ne hx]
      exact h.held c x hc

/-- The process goes to `d`, and the others work on other slots. -/
theorem Pages.goes (h : Pages s) {d : Place} (h1 : s'.proc = update s.proc np q) (hplace : s'.place = update s.place p d)
    (hq : PagesOk q) (hother : ∀ c x, c ≠ p → (s.place c).child = some x → x ≠ np)
    (hown : ∀ x, d.child = some x → x = np ∧ PlaceOk d q) : Pages s' := by
  refine h.slot (p := p) h1 hq (fun c x hcp hc => ?_) fun x hx => ?_
  · rw [hplace, update_of_ne hcp] at hc ⊢
    exact ⟨rfl, hother c x hcp hc⟩
  · rw [hplace, update_self] at hx ⊢
    exact hown x hx

theorem vacant_pagesOk (hs : q.state = .embryo) : PagesOk q := by
  exact ⟨fun hc => absurd hc (Vacant.gone (.inr hs)), fun hc => nomatch hs.symm.trans hc⟩

theorem unused_pagesOk (hs : q.state = .unused) (hk : q.kstack = false ∧ q.pgdir = false) : PagesOk q := by
  exact ⟨fun hc => absurd hc (Vacant.gone (.inl hs)), fun _ => hk⟩

theorem moves_pages (h : Pages s) (hem : Embryos s) (hm : Moves initproc s s') : Pages s' := by
  -- the others work on other slots
  have hwork : ∀ {p np : Slot}, (s.place p).child = some np → ∀ c x, c ≠ p → (s.place c).child = some x → x ≠ np :=
    fun hp c _ hcp hc heq => hcp (hem.single c _ _ (heq ▸ hc) hp)
  cases hm with
  | still hst _ =>
    have hq := hst.quiet
    refine ⟨fun c => ?_, fun c x hc => ?_⟩
    · obtain ⟨h1, h2⟩ := h.slots c
      rw [PagesOk, hq.kstack, hq.pgdir, hq.live, hq.dead (.inr (.inr rfl)), hq.dead (.inl rfl)]
      exact ⟨h1, h2⟩
    · have heq := hst.place_child hc
      rw [heq] at hc ⊢
      have hok := h.held c x hc
      revert hok
      unfold PlaceOk
      rw [hq.kstack, hq.pgdir]
      exact id
  | @take p np hr hp hu =>
    have hnone : ∀ c, (s.place c).child ≠ some np := fun c hc => nomatch hu.symm.trans (hem.held c np hc)
    have hk := (h.slots np).2 hu
    exact h.goes (d := .taken np) rfl rfl (vacant_pagesOk rfl) (fun c x _ hc heq => hnone c (heq ▸ hc))
      fun x hx => ⟨(some.inj hx).symm, hk⟩
  | @stack p np hr hp =>
    have hc : (s.place p).child = some np := by rw [hp]; rfl
    have hok := h.held p np hc
    rw [hp] at hok
    exact h.goes (d := .stacked np) rfl rfl (vacant_pagesOk (hem.held p np hc)) (hwork hc)
      fun x hx => ⟨(some.inj hx).symm, rfl, hok.2⟩
  | @back p np hr hp =>
    have hc : (s.place p).child = some np := by rcases hp with hp | hp <;> rw [hp] <;> rfl
    have hpg : (s.proc np).pgdir = false := by
      have hok := h.held p np hc
      rcases hp with hp | hp <;> rw [hp] at hok <;> exact hok.2
    exact h.goes (d := .user) rfl rfl (unused_pagesOk rfl ⟨rfl, hpg⟩) (hwork hc) nofun
  | @copy p np hr hp =>
    have hc : (s.place p).child = some np := by rw [hp]; rfl
    have hok := h.held p np hc
    rw [hp] at hok
    exact h.goes (d := .copied np) rfl rfl (vacant_pagesOk (hem.held p np hc)) (hwork hc)
      fun x hx => ⟨(some.inj hx).symm, hok.1, rfl⟩
  | @born p np hr hp =>
    have hc : (s.place p).child = some np := by rw [hp]; rfl
    have hok := h.held p np hc
    rw [hp] at hok
    refine h.slot (p := p) rfl ⟨fun _ => hok, nofun⟩ (fun c x hcp hx => ?_) fun x hx => ?_
    · have hx' : (update (update s.place p .user) np .user c).child = some x := hx
      obtain ⟨h1, -⟩ := place_goto rfl c x hx'
      rw [h1, update_of_ne hcp] at hx'
      exact ⟨h1.trans (update_of_ne hcp _ _), hwork hc c x hcp hx'⟩
    · have hx' : (update (update s.place p .user) np .user p).child = some x := hx
      rw [(place_goto rfl p x hx').1] at hx'
      exact absurd rfl (child_goto rfl p x hx').1
  | @exit p hr hp =>
    have hx := exitEnd_exited initproc p s
    refine ⟨fun c => ?_, fun c x hc => ?_⟩
    · obtain ⟨h1, h2⟩ := h.slots c
      rw [PagesOk, hx.kstack, hx.pgdir]
      by_cases hcp : c = p
      · subst hcp
        refine ⟨fun _ => h1 (.inl (.inr (.inr hr))), fun hu => nomatch hx.zombie.symm.trans hu⟩
      · rcases hx.state c hcp with h3 | ⟨h3, h4⟩
        · rw [Live, h3]; exact ⟨h1, h2⟩
        · exact ⟨fun _ => h1 (.inl h3), fun hu => absurd h4 (not_live _ _ hu (.inl rfl))⟩
    · have hc' : (update s.place p .user c).child = some x := hc
      show PlaceOk (update s.place p .user c) _
      have heq := (place_goto rfl c x hc').1
      rw [heq] at hc' ⊢
      have hok := h.held c x hc'
      revert hok
      unfold PlaceOk
      rw [hx.kstack, hx.pgdir]
      exact id
  | @reap p c hr hc hz =>
    refine h.goes (d := .user) rfl rfl (unused_pagesOk rfl ⟨rfl, rfl⟩) (fun d x _ hd => ?_) nofun
    rintro rfl
    cases hz.symm.trans (hem.held d x hd)

end Pages

/-! ## Who sleeps in `wait` -/

/-- A process that sleeps in `wait` has no zombie child. -/
def Restful (s : Sys) : Prop := ∀ p, (s.proc p).state = .sleeping → s.place p = .waiting →
  (s.proc p).chan = some (.proc p) ∧ ∀ c, (s.proc c).parent = some p → (s.proc c).state ≠ .zombie

section Restful

variable {initproc : Slot} {s s' : Sys}

/-- A slot changes that holds neither a sleeper nor a zombie then. -/
theorem Restful.slot (h : Restful s) {np : Slot} {q : Proc} (h1 : s'.proc = update s.proc np q)
    (hs : q.state ≠ .sleeping) (hz : q.state ≠ .zombie)
    (hplace : ∀ c, s'.place c = .waiting → s.place c = .waiting) : Restful s' := by
  intro p hp hw
  rw [h1] at hp ⊢
  have hne : p ≠ np := by
    rintro rfl
    rw [update_self] at hp
    exact hs hp
  rw [update_of_ne hne] at hp ⊢
  obtain ⟨hchan, hkids⟩ := h p hp (hplace p hw)
  refine ⟨hchan, fun c hc => ?_⟩
  by_cases hcn : c = np
  · rw [hcn, update_self]; exact hz
  · rw [update_of_ne hcn] at hc ⊢
    exact hkids c hc

theorem waiting_goto {place : Slot → Place} {p : Slot} {d : Place} (hd : d ≠ .waiting) (c : Slot)
    (hc : update place p d c = .waiting) : place c = .waiting := by
  by_cases hcp : c = p
  · rw [hcp, update_self] at hc
    exact absurd hc hd
  · rwa [update_of_ne hcp] at hc

theorem moves_restful (h : Restful s) (hf : Family initproc s) (hem : Embryos s)
    (hm : Moves initproc s s') : Restful s' := by
  have hembryo : ∀ {q : Proc}, q.state = .embryo → q.state ≠ .sleeping ∧ q.state ≠ .zombie := by
    intro q hq
    rw [hq]
    decide
  cases hm with
  | still hst _ =>
    have hq := hst.quiet
    intro p hs hw
    have hkids : (∀ c, (s.proc c).parent = some p → (s.proc c).state ≠ .zombie) →
        ∀ c, (s'.proc c).parent = some p → (s'.proc c).state ≠ .zombie := by
      intro hk c hc hz
      rw [hq.parent] at hc
      exact hk c hc ((hq.dead (.inr (.inr rfl)) c).mp hz)
    rcases hst.rest p hs hw with ⟨h1, h2, h3⟩ | ⟨h1, h2⟩
    · obtain ⟨h4, h5⟩ := h p h1 h2
      exact ⟨h3.trans h4, hkids h5⟩
    · exact ⟨h1, hkids h2⟩
  | @take p np hr hp hu =>
    exact h.slot rfl nofun nofun (waiting_goto (d := .taken np) nofun)
  | @stack p np hr hp =>
    obtain ⟨h1, h2⟩ := hembryo (hem.held p np (by rw [hp]; rfl))
    exact h.slot rfl h1 h2 (waiting_goto (d := .stacked np) nofun)
  | @back p np hr hp | @reap p c hr hc hz => exact h.slot rfl nofun nofun (waiting_goto (d := .user) nofun)
  | @copy p np hr hp =>
    obtain ⟨h1, h2⟩ := hembryo (hem.held p np (by rw [hp]; rfl))
    exact h.slot rfl h1 h2 (waiting_goto (d := .copied np) nofun)
  | @born p np hr hp =>
    refine h.slot rfl nofun nofun fun c hc => ?_
    exact waiting_goto (d := .user) nofun c (waiting_goto (d := .user) nofun c hc)
  | @exit p hr hp =>
    have hx := exitEnd_exited initproc p s
    intro c hs hw
    obtain ⟨h1, h2, h3, h4⟩ := hx.asleep c hs
    obtain ⟨hchan, hkids⟩ := h c h1 (waiting_goto (d := .user) nofun c hw)
    refine ⟨h2.trans hchan, fun z hz hzombie => ?_⟩
    rw [hx.parent] at hz
    by_cases hpar : (s.proc z).parent = some p
    · -- a child of `p` that has become init's: a zombie before, as `p` is not its own child
      rw [if_pos hpar] at hz
      obtain rfl : initproc = c := some.inj hz
      have hzp : z ≠ p := fun heq => hf.self p (heq ▸ hpar)
      rcases hx.state z hzp with h5 | ⟨-, h5⟩
      · exact h4 ⟨z, hpar, h5.symm.trans hzombie⟩ hchan
      · exact not_live _ _ hzombie (.inr (.inr rfl)) h5
    · rw [if_neg hpar] at hz
      by_cases hzp : z = p
      · exact h3 (hzp ▸ hz) hchan
      · rcases hx.state z hzp with h5 | ⟨-, h5⟩
        · exact hkids z hz (h5.symm.trans hzombie)
        · exact not_live _ _ hzombie (.inr (.inr rfl)) h5

end Restful

/-! ## Who has forked whom -/

/-- The process with the number `k` has exited. -/
def Gone (s : Sys) (k : Nat) : Prop :=
  ∀ r, (s.proc r).state ≠ .unused → s.ids r = k → (s.proc r).state = .zombie

/-- Process `k` is entitled to wait for the children of the process `forker`. -/
def Entitled (s : Sys) (forker k : Nat) : Prop := k = forker ∨ (k = 0 ∧ Gone s forker)

structure Numbers (initproc : Slot) (s : Sys) : Prop where
  lt : ∀ p, (s.proc p).state ≠ .unused → s.ids p < s.births
  inj : ∀ p q, (s.proc p).state ≠ .unused → (s.proc q).state ≠ .unused → s.ids p = s.ids q → p = q
  forker_lt : ∀ p, s.forker p < s.births
  first : s.ids initproc = 0
  worker : ∀ p np, (s.place p).child = some np → s.forker np = s.ids p ∧ Live (s.proc p)
  parent : ∀ p q, (s.proc p).parent = some q → Entitled s (s.forker p) (s.ids q)
  ends : ∀ caller pid w e, reaped caller pid w e ∈ s.trace → e.child < s.births ∧ e.forker < s.births ∧
    (∀ p, (s.proc p).state ≠ .unused → s.ids p ≠ e.child) ∧ Entitled s e.forker caller
  once : (s.trace.filterMap child).Nodup

/-- No process gets a number, and no zombie comes back. -/
structure Kept (s s' : Sys) : Prop where
  ids : s'.ids = s.ids
  births : s'.births = s.births
  forker : s'.forker = s.forker
  used : ∀ r, (s'.proc r).state ≠ .unused → (s.proc r).state ≠ .unused
  zombie : ∀ r, (s.proc r).state = .zombie → (s'.proc r).state ≠ .unused → (s'.proc r).state = .zombie

section Numbers

variable {initproc : Slot} {s s' : Sys} {p np : Slot} {q : Proc} {k : Nat}

theorem Kept.gone (h : Kept s s') (hg : Gone s k) : Gone s' k := by
  intro r hr hk
  rw [h.ids] at hk
  exact h.zombie r (hg r (h.used r hr) hk) hr

theorem Kept.entitled (h : Kept s s') {forker : Nat} (he : Entitled s forker k) : Entitled s' forker k := by
  rcases he with he | ⟨he, hg⟩
  · exact .inl he
  · exact .inr ⟨he, h.gone hg⟩

theorem live_used (h : Live (s.proc p)) : (s.proc p).state ≠ .unused :=
  fun hu => not_live _ _ hu (.inl rfl) h

/-- Numbers when none is given out. -/
theorem Numbers.keep (h : Numbers initproc s) (hk : Kept s s')
    (hw : ∀ p np, (s'.place p).child = some np → (s.place p).child = some np ∧ (Live (s.proc p) → Live (s'.proc p)))
    (hpar : ∀ p q, (s'.proc p).parent = some q → Entitled s' (s.forker p) (s.ids q))
    (htrace : s'.trace = s.trace ∨ ∃ e : Event, e.child = none ∧ s'.trace = e :: s.trace) : Numbers initproc s' := by
  have hends : ∀ caller pid w e, reaped caller pid w e ∈ s.trace → e.child < s'.births ∧
      e.forker < s'.births ∧ (∀ p, (s'.proc p).state ≠ .unused → s'.ids p ≠ e.child) ∧
      Entitled s' e.forker caller := by
    intro caller pid w e he
    obtain ⟨h1, h2, h3, h4⟩ := h.ends caller pid w e he
    rw [hk.births, hk.ids]
    exact ⟨h1, h2, fun p hp => h3 p (hk.used p hp), hk.entitled h4⟩
  refine ⟨fun p hp => ?_, fun p q hp hq hpq => ?_, fun p => ?_, ?_, fun p np hp => ?_, fun p q hp => ?_, ?_, ?_⟩
  · rw [hk.ids, hk.births]
    exact h.lt p (hk.used p hp)
  · rw [hk.ids] at hpq
    exact h.inj p q (hk.used p hp) (hk.used q hq) hpq
  · rw [hk.forker, hk.births]
    exact h.forker_lt p
  · rw [hk.ids]
    exact h.first
  · obtain ⟨h1, h2⟩ := hw p np hp
    obtain ⟨h3, h4⟩ := h.worker p np h1
    rw [hk.forker, hk.ids]
    exact ⟨h3, h2 h4⟩
  · rw [hk.forker, hk.ids]
    exact hpar p q hp
  · intro caller pid w e he
    rcases htrace with ht | ⟨x, hx, ht⟩
    · rw [ht] at he
      exact hends caller pid w e he
    · rw [ht] at he
      rcases mem_cons.mp he with rfl | he
      · cases hx
      · exact hends caller pid w e he
  · rcases htrace with ht | ⟨x, hx, ht⟩
    · rw [ht]; exact h.once
    · rw [ht, filterMap_cons_none hx]; exact h.once

/-- One slot changes, in a way that no number notices. -/
theorem kept_slot (h1 : s'.proc = update s.proc np q) (hu : (s.proc np).state ≠ .unused)
    (hz : (s.proc np).state = .zombie → q.state = .unused)
    (hids : s'.ids = s.ids ∧ s'.births = s.births ∧ s'.forker = s.forker) : Kept s s' := by
  refine ⟨hids.1, hids.2.1, hids.2.2, fun r hr => ?_, fun r hr hr' => ?_⟩
  · by_cases hrn : r = np
    · rw [hrn]; exact hu
    · rwa [h1, update_of_ne hrn] at hr
  · rw [h1] at hr' ⊢
    by_cases hrn : r = np
    · subst hrn
      rw [update_self] at hr'
      exact absurd (hz hr) hr'
    · rw [update_of_ne hrn]
      exact hr

/-- The parents stay what they are. -/
theorem Numbers.sameParents (h : Numbers initproc s) (hk : Kept s s')
    (hpar : ∀ c, (s'.proc c).parent = (s.proc c).parent) (p q : Slot) (hp : (s'.proc p).parent = some q) :
    Entitled s' (s.forker p) (s.ids q) := by
  rw [hpar] at hp
  exact hk.entitled (h.parent p q hp)

theorem live_slot (h1 : s'.proc = update s.proc np q) (hv : Vacant (s.proc np) ∨ (s.proc np).state = .zombie)
    (c : Slot) (hl : Live (s.proc c)) : Live (s'.proc c) := by
  have hne : c ≠ np := by
    rcases hv with hv | hv
    · exact live_ne hl hv
    · rintro rfl
      exact not_live _ _ hv (.inr (.inr rfl)) hl
  rw [h1, update_of_ne hne]
  exact hl

/-- A child is handed over. -/
theorem Numbers.reap (h : Numbers initproc s) {caller : Nat} (pid w : Int32) {e : End} (h1 : e.child < s.births)
    (h2 : e.forker < s.births) (h3 : ∀ p, (s.proc p).state ≠ .unused → s.ids p ≠ e.child)
    (h4 : Entitled s e.forker caller) (h5 : e.child ∉ s.trace.filterMap child) :
    Numbers initproc (s.log (.reaped caller pid w e)) := by
  refine ⟨h.lt, h.inj, h.forker_lt, h.first, h.worker, h.parent, ?_, ?_⟩
  · intro caller' pid' w' e' he
    rcases mem_cons.mp he with he | he
    · cases he
      exact ⟨h1, h2, h3, h4⟩
    · exact h.ends caller' pid' w' e' he
  · exact nodup_cons.mpr ⟨h5, h.once⟩

/-- A process gets a number. -/
theorem Numbers.take (h : Numbers initproc s) (hf : Family initproc s) (hpl : Places initproc s)
    (hem : Embryos s) (hr : Runs s p) (hu : (s.proc np).state = .unused) : Numbers initproc (takeSlot p np s) := by
  have hproc : (takeSlot p np s).proc = update s.proc np { s.proc np with state := .embryo, pid := s.nextpid } := rfl
  have hids : ∀ c, c ≠ np → (takeSlot p np s).ids c = s.ids c := fun c hc => update_of_ne hc _ _
  have hnew : (takeSlot p np s).ids np = s.births := update_self _ _ _
  have hforker : ∀ c, c ≠ np → (takeSlot p np s).forker c = s.forker c := fun c hc => update_of_ne hc _ _
  have hfnew : (takeSlot p np s).forker np = s.ids p := update_self _ _ _
  have hbirths : (takeSlot p np s).births = s.births + 1 := rfl
  have hpar : ∀ c, ((takeSlot p np s).proc c).parent = (s.proc c).parent := parent_slot rfl rfl
  have hstate : ∀ c, c ≠ np → ((takeSlot p np s).proc c) = s.proc c := fun c hc => update_of_ne hc _ _
  have hlive : ∀ c, Live (s.proc c) → c ≠ np := fun c hc => live_ne hc (.inl hu)
  have hpr : Live (s.proc p) := .inr (.inr hr)
  have hgone : ∀ k, k < s.births → Gone s k → Gone (takeSlot p np s) k := by
    intro k hk hg r hr hrk
    by_cases hrn : r = np
    · rw [hrn, hnew] at hrk
      omega
    · rw [hids r hrn] at hrk
      rw [hstate r hrn] at hr ⊢
      exact hg r hr hrk
  have hent : ∀ f k, f < s.births → Entitled s f k → Entitled (takeSlot p np s) f k := by
    rintro f k hfb (he | ⟨he, hg⟩)
    · exact .inl he
    · exact .inr ⟨he, hgone f hfb hg⟩
  refine ⟨fun c hc => ?_, fun c d hc hd hcd => ?_, fun c => ?_, ?_, fun c x hc => ?_, fun c d hcd => ?_, ?_, h.once⟩
  · by_cases hcn : c = np
    · rw [hcn, hnew, hbirths]; omega
    · rw [hstate c hcn] at hc
      rw [hids c hcn, hbirths]
      exact Nat.lt_succ_of_lt (h.lt c hc)
  · by_cases hcn : c = np <;> by_cases hdn : d = np
    · rw [hcn, hdn]
    · rw [hstate d hdn] at hd
      rw [hcn, hnew, hids d hdn] at hcd
      have := h.lt d hd
      omega
    · rw [hstate c hcn] at hc
      rw [hdn, hnew, hids c hcn] at hcd
      have := h.lt c hc
      omega
    · rw [hstate c hcn] at hc
      rw [hstate d hdn] at hd
      rw [hids c hcn, hids d hdn] at hcd
      exact h.inj c d hc hd hcd
  · by_cases hcn : c = np
    · rw [hcn, hfnew, hbirths]
      exact Nat.lt_succ_of_lt (h.lt p (live_used hpr))
    · rw [hforker c hcn, hbirths]
      exact Nat.lt_succ_of_lt (h.forker_lt c)
  · rw [hids _ (hlive _ hf.root)]
    exact h.first
  · have hc' : (update s.place p (.taken np) c).child = some x := hc
    rw [update_apply] at hc'
    split_ifs at hc' with hcp
    · obtain rfl : np = x := some.inj hc'
      rw [hcp, hfnew, hids p (hlive p hpr), hstate p (hlive p hpr)]
      exact ⟨rfl, hpr⟩
    · obtain ⟨h1, h2⟩ := h.worker c x hc'
      have hxn : x ≠ np := by
        intro heq
        have he := hem.held c x hc'
        rw [heq, hu] at he
        cases he
      rw [hforker x hxn, hids c (hlive c h2), hstate c (hlive c h2)]
      exact ⟨h1, h2⟩
  · rw [hpar] at hcd
    have hcn : c ≠ np := by
      rintro rfl
      rw [hpl.empty c hu] at hcd
      cases hcd
    rw [hforker c hcn, hids d (hlive d (hf.alive c d hcd))]
    exact hent _ _ (h.forker_lt c) (h.parent c d hcd)
  · intro caller pid w e he
    obtain ⟨h1, h2, h3, h4⟩ := h.ends caller pid w e he
    refine ⟨Nat.lt_succ_of_lt h1, Nat.lt_succ_of_lt h2, fun c hc => ?_, hent _ _ h2 h4⟩
    by_cases hcn : c = np
    · rw [hcn, hnew]; omega
    · rw [hstate c hcn] at hc
      rw [hids c hcn]
      exact h3 c hc

theorem moves_numbers (h : Numbers initproc s) (hf : Family initproc s) (hpl : Places initproc s)
    (hem : Embryos s) (hm : Moves initproc s s') : Numbers initproc s' := by
  have hused : ∀ {p np : Slot}, (s.place p).child = some np → (s.proc np).state ≠ .unused ∧
      (s.proc np).state ≠ .zombie := by
    intro p np hp
    rw [hem.held p np hp]
    decide
  -- `fork` goes on with the same child
  have hgoOn : ∀ {p np : Slot} {d : Place}, (s.place p).child = some np → d.child = some np → ∀ c x,
      (update s.place p d c).child = some x → (s.place c).child = some x := by
    intro p np d hp hd c x hx
    by_cases hcp : c = p
    · rw [hcp, update_self, hd] at hx
      rw [hcp, hp, hx]
    · rwa [update_of_ne hcp] at hx
  cases hm with
  | still hst _ =>
    have hq := hst.quiet
    have hk : Kept s s' := ⟨hst.ids, hst.births, hst.forker,
      fun r hr hu => hr ((hq.dead (.inl rfl) r).mpr hu), fun r hz _ => (hq.dead (.inr (.inr rfl)) r).mpr hz⟩
    refine h.keep hk (fun c x hc => ?_) (h.sameParents hk hq.parent) hst.trace
    have heq := hst.place_child hc
    rw [heq] at hc
    exact ⟨hc, (hq.live c).mpr⟩
  | @take p np hr hp hu => exact h.take hf hpl hem hr hu
  | @stack p np hr hp =>
    have hc : (s.place p).child = some np := by rw [hp]; rfl
    have hk : Kept s (allocStack p np true s) :=
      kept_slot rfl (hused hc).1 (fun hz => absurd hz (hused hc).2) ⟨rfl, rfl, rfl⟩
    exact h.keep hk (fun c x hx => ⟨hgoOn (d := .stacked np) hc rfl c x hx,
      live_slot rfl (.inl (.inr (hem.held p np hc))) c⟩)
      (h.sameParents hk (parent_slot rfl rfl)) (.inl rfl)
  | @back p np hr hp =>
    have hc : (s.place p).child = some np := by rcases hp with hp | hp <;> rw [hp] <;> rfl
    have hk : Kept s (giveBack p np s) := kept_slot rfl (hused hc).1 (fun _ => rfl) ⟨rfl, rfl, rfl⟩
    exact h.keep hk (fun c x hx => ⟨(child_goto rfl c x hx).2, live_slot rfl (.inl (.inr (hem.held p np hc))) c⟩)
      (h.sameParents hk (parent_slot rfl rfl)) (.inl rfl)
  | @copy p np hr hp =>
    have hc : (s.place p).child = some np := by rw [hp]; rfl
    have hk : Kept s (forkCopy p np true s) :=
      kept_slot rfl (hused hc).1 (fun hz => absurd hz (hused hc).2) ⟨rfl, rfl, rfl⟩
    refine h.keep hk (fun c x hx => ⟨hgoOn (d := .copied np) hc rfl c x hx,
      live_slot rfl (.inl (.inr (hem.held p np hc))) c⟩) (fun c d hcd => ?_) (.inl rfl)
    have hcd' : (update s.proc np { s.proc np with pgdir := true, parent := some p } c).parent = some d := hcd
    rw [update_apply] at hcd'
    split_ifs at hcd' with hcn
    · obtain rfl : p = d := some.inj hcd'
      rw [hcn, (h.worker p np hc).1]
      exact .inl rfl
    · exact hk.entitled (h.parent c d hcd')
  | @born p np hr hp =>
    have hc : (s.place p).child = some np := by rw [hp]; rfl
    have hk : Kept s (forkDone p np s) :=
      kept_slot rfl (hused hc).1 (fun hz => absurd hz (hused hc).2) ⟨rfl, rfl, rfl⟩
    exact h.keep hk (fun c x hx => ⟨(child_goto rfl c x (child_goto rfl c x hx).2).2,
      live_slot rfl (.inl (.inr (hem.held p np hc))) c⟩)
      (h.sameParents hk (parent_slot rfl rfl)) (.inr ⟨_, rfl, rfl⟩)
  | @exit p hr hp =>
    have hx := exitEnd_exited initproc p s
    have hpr : Live (s.proc p) := .inr (.inr hr)
    have hk : Kept s (exitEnd initproc p s) := by
      refine ⟨rfl, rfl, rfl, fun r hr' => ?_, fun r hz _ => ?_⟩
      · by_cases hrp : r = p
        · rw [hrp]; exact live_used hpr
        · rcases hx.state r hrp with h1 | ⟨h1, -⟩
          · rwa [h1] at hr'
          · exact live_used h1
      · by_cases hrp : r = p
        · rw [hrp]; exact hx.zombie
        · rcases hx.state r hrp with h1 | ⟨h1, -⟩
          · exact h1.trans hz
          · exact absurd h1 (not_live _ _ hz (.inr (.inr rfl)))
    refine h.keep hk (fun c x hc => ?_) (fun c d hcd => ?_) (.inl rfl)
    · obtain ⟨h1, h2⟩ := child_goto rfl c x hc
      refine ⟨h2, fun hl => ?_⟩
      rcases hx.state c h1 with h3 | ⟨-, h3⟩
      · rw [Live, h3]; exact hl
      · exact h3
    · rw [hx.parent] at hcd
      split at hcd
      next hpar =>
        -- the forker is the process that has just become a zombie
        obtain rfl : initproc = d := some.inj hcd
        have hgone : Gone (exitEnd initproc p s) (s.ids p) := by
          intro r hr' hrk
          have hrp : r = p := h.inj r p (hk.used r hr') (live_used hpr) hrk
          rw [hrp]
          exact hx.zombie
        rcases h.parent c p hpar with h1 | ⟨h1, h2⟩
        · exact .inr ⟨h.first, h1 ▸ hgone⟩
        · exact .inr ⟨h.first, hk.gone h2⟩
      · exact hk.entitled (h.parent c d hcd)
  | @reap p c hr hc hz =>
    have hcu : (s.proc c).state ≠ .unused := fun hu => by cases hz.symm.trans hu
    let s1 : Sys := (s.modify c fun q => { q with
      kstack := false, pgdir := false, state := .unused, pid := 0, parent := none, killed := false }).goto p .user
    have hproc : s1.proc = update s.proc c { s.proc c with
      kstack := false, pgdir := false, state := .unused, pid := 0, parent := none, killed := false } := rfl
    have hk : Kept s s1 := kept_slot rfl hcu (fun _ => rfl) ⟨rfl, rfl, rfl⟩
    have h1 : Numbers initproc s1 := by
      refine h.keep hk (fun d x hx => ⟨(child_goto rfl d x hx).2, live_slot rfl (.inr hz) d⟩)
        (fun d x hdx => ?_) (.inl rfl)
      rw [hproc, update_apply] at hdx
      split_ifs at hdx
      exact hk.entitled (h.parent d x hdx)
    refine h1.reap _ _ (h.lt c hcu) (h.forker_lt c) (fun d hd heq => ?_) (hk.entitled (h.parent c p hc)) ?_
    · have hdc : d = c := h.inj d c (hk.used d hd) hcu heq
      rw [hdc, hproc, update_self] at hd
      exact hd rfl
    · intro hmem
      obtain ⟨x, hx, hxc⟩ := mem_filterMap.mp hmem
      cases x with
      | reaped caller pid w e =>
        exact (h.ends caller pid w e hx).2.2.1 c hcu (some.inj hxc).symm
      | _ => cases hxc

end Numbers

/-! ## The whole run -/

/-- What holds of the table between steps. -/
structure Sound (initproc : Slot) (s : Sys) : Prop where
  embryos : Embryos s
  family : Family initproc s
  places : Places initproc s
  pages : Pages s
  restful : Restful s
  numbers : Numbers initproc s

section Run

variable {initproc : Slot} {s s' : Sys} {a : Act}

theorem boot_sound (initproc : Slot) : Sound initproc (boot initproc) := by
  have hroot : (boot initproc).proc initproc = ⟨true, true, .running, 1, none, none, false, 0⟩ := if_pos rfl
  have hother : ∀ p, p ≠ initproc → (boot initproc).proc p = ⟨false, false, .unused, 0, none, none, false, 0⟩ :=
    fun p hp => if_neg hp
  have hparent : ∀ p, ((boot initproc).proc p).parent = none := by
    intro p
    by_cases hp : p = initproc
    · rw [hp, hroot]
    · rw [hother p hp]
  have hstate : ∀ p, ((boot initproc).proc p).state ≠ .unused → p = initproc := by
    intro p hs
    by_contra hp
    exact hs (by rw [hother p hp])
  refine ⟨⟨nofun, nofun⟩, ⟨?_, hparent _, fun p q hp => ?_, fun p hp hs => ?_,
    fun p hp => ?_⟩, ⟨nofun, fun p _ => hparent p, fun p np hp => ?_, nofun⟩,
    ⟨fun p => ?_, nofun⟩, nofun, ?_⟩
  · rw [hroot]; exact .inr (.inr rfl)
  · rw [hparent] at hp; cases hp
  · rw [hother p hp] at hs
    rcases hs with hs | hs
    · exact absurd hs (not_live _ _ rfl (.inl rfl))
    · cases hs
  · rw [hparent] at hp; cases hp
  · rcases hp with hp | hp <;> exact nomatch hp
  · by_cases hp : p = initproc
    · rw [hp, hroot]
      exact ⟨fun _ => ⟨rfl, rfl⟩, nofun⟩
    · rw [hother p hp]
      exact unused_pagesOk rfl ⟨rfl, rfl⟩
  · refine ⟨fun p _ => Nat.zero_lt_one, fun p q hp hq _ => ?_, fun p => Nat.zero_lt_one, rfl, nofun,
      fun p q hp => ?_, fun _ _ _ _ he => absurd he not_mem_nil, nodup_nil⟩
    · rw [hstate p hp, hstate q hq]
    · rw [hparent] at hp; cases hp

theorem takes_sound (h : Sound initproc s) (ht : Takes initproc s a s') : Sound initproc s' where
  embryos := moves_embryos h.embryos (takes_moves ht)
  family := moves_family h.family h.places h.embryos (takes_moves ht)
  places := moves_places h.places h.embryos (takes_moves ht)
  pages := moves_pages h.pages h.embryos (takes_moves ht)
  restful := moves_restful h.restful h.family h.embryos (takes_moves ht)
  numbers := moves_numbers h.numbers h.family h.places h.embryos (takes_moves ht)

/-- **The table is sound** in every state of every run. -/
theorem reach_sound {ok : Act → Sys → Prop} (h : Reach initproc ok s) : Sound initproc s := by
  induction h with
  | boot => exact boot_sound initproc
  | step _ _ hs ih => exact takes_sound ih (step_takes hs)

/-- `wait` returns -1 only without children or to a process that has been killed. -/
def Event.honest : Event → Prop
  | .alone kids flag => kids = false ∨ flag = true
  | _ => True

theorem reach_honest {ok : Act → Sys → Prop} (h : Reach initproc ok s) : ∀ e ∈ s.trace, e.honest := by
  induction h with
  | boot => exact fun e he => absurd he not_mem_nil
  | @step s s' a _ _ hs ih =>
    have hnew : ∀ e : Event, e.honest → ∀ x ∈ e :: s.trace, x.honest := by
      intro e he x hx
      rcases mem_cons.mp hx with rfl | hx
      · exact he
      · exact ih x hx
    cases step_takes hs with
    | allocproc =>
      rw [allocproc]
      split
      · exact ih
      · exact ih
    | @allocStack p np ok | @forkCopy p np ok => cases ok <;> exact ih
    | forkDone => exact hnew _ trivial
    | wait =>
      rw [waitRound]
      split
      · exact hnew _ trivial
      · split
        next hk => exact hnew _ hk
        · exact ih
    | kill =>
      rw [kill]
      split
      · exact hnew _ trivial
      · exact hnew _ trivial
    | _ => exact ih

/-- The step frees the kernel stack of slot `c`. -/
def FreesStack (a : Act) (s : Sys) (c : Slot) : Prop :=
  (∃ p, a = .wait p ∧ table.find? (fun c => decide ((s.proc c).parent = some p ∧ (s.proc c).state = .zombie))
    = some c) ∨ ∃ p, a = .forkCopy p false ∧ s.place p = .stacked c

/-- The step frees the page table of slot `c`. -/
def FreesTable (a : Act) (s : Sys) (c : Slot) : Prop :=
  ∃ p, a = .wait p ∧ table.find? (fun c => decide ((s.proc c).parent = some p ∧ (s.proc c).state = .zombie)) = some c

theorem freesTable_held (h : Sound initproc s) (hs : step initproc a s = some s') {c : Slot}
    (hf : FreesTable a s c) : (s.proc c).kstack = true ∧ (s.proc c).pgdir = true ∧
      (s'.proc c).kstack = false ∧ (s'.proc c).pgdir = false := by
  obtain ⟨p, rfl, hfind⟩ := hf
  have hc := find?_some hfind
  simp only [decide_eq_true_eq] at hc
  obtain ⟨hk, hp⟩ := (h.pages.slots c).1 (.inr hc.2)
  refine ⟨hk, hp, ?_⟩
  cases step_takes hs
  have hround : waitRound p s = reap p c s := by rw [waitRound, hfind]
  rw [hround]
  have hproc : (reap p c s).proc c = { s.proc c with
    kstack := false, pgdir := false, state := .unused, pid := 0, parent := none, killed := false } :=
    update_self _ _ _
  rw [hproc]
  exact ⟨rfl, rfl⟩

theorem freesStack_held (h : Sound initproc s) (hs : step initproc a s = some s') {c : Slot}
    (hf : FreesStack a s c) : (s.proc c).kstack = true ∧ (s'.proc c).kstack = false := by
  rcases hf with hf | ⟨p, rfl, hp⟩
  · obtain ⟨h1, -, h2, -⟩ := freesTable_held h hs hf
    exact ⟨h1, h2⟩
  · have hok := h.pages.held p c (by rw [hp]; rfl)
    rw [hp] at hok
    refine ⟨hok.1, ?_⟩
    cases step_takes hs with
    | @forkCopy _ np _ _ hp' =>
      obtain rfl : c = np := Place.stacked.inj (hp.symm.trans hp')
      have hproc : (forkCopy p c false s).proc c = { s.proc c with kstack := false, state := .unused } :=
        update_self _ _ _
      rw [hproc]

/-- What the step takes from slot `c` it frees. -/
def Frees (a : Act) (s s' : Sys) (c : Slot) : Prop :=
  ((s.proc c).kstack = true → (s'.proc c).kstack = false → FreesStack a s c) ∧
  ((s.proc c).pgdir = true → (s'.proc c).pgdir = false → FreesTable a s c)

theorem frees_same {c : Slot} (h1 : (s'.proc c).kstack = (s.proc c).kstack)
    (h2 : (s'.proc c).pgdir = (s.proc c).pgdir) : Frees a s s' c := by
  rw [Frees, h1, h2]
  exact ⟨fun h3 h4 => (nomatch h3.symm.trans h4), fun h3 h4 => (nomatch h3.symm.trans h4)⟩

theorem frees_slot {x : Slot} {q : Proc} (h1 : s'.proc = update s.proc x q) (hx : Frees a s s' x)
    (c : Slot) : Frees a s s' c := by
  by_cases hc : c = x
  · rw [hc]; exact hx
  · have heq : s'.proc c = s.proc c := by rw [h1, update_of_ne hc]
    exact frees_same (by rw [heq]) (by rw [heq])

theorem frees_kept {x : Slot} {q : Proc} (h1 : s'.proc = update s.proc x q)
    (h2 : q.kstack = (s.proc x).kstack ∧ q.pgdir = (s.proc x).pgdir) (c : Slot) : Frees a s s' c := by
  refine frees_slot h1 (frees_same ?_ ?_) c
  · rw [h1, update_self, h2.1]
  · rw [h1, update_self, h2.2]

/-- **No step loses a page**: what it takes from a slot it frees. -/
theorem takes_frees (h : Sound initproc s) (ht : Takes initproc s a s') (c : Slot) : Frees a s s' c := by
  have hplace : ∀ {p np : Slot}, (s.place p).child = some np → PlaceOk (s.place p) (s.proc np) :=
    fun hp => h.pages.held _ _ hp
  cases ht with
  | wakeup => exact frees_same (wakeup1_field Proc.kstack (fun _ => rfl) _ c) (wakeup1_field Proc.pgdir (fun _ => rfl) _ c)
  | allocproc =>
    rw [allocproc]
    split
    next => exact frees_same rfl rfl
    next => exact frees_kept rfl (by exact ⟨rfl, rfl⟩) c
  | @allocStack p np ok _ hp =>
    have hok := hplace (show (s.place p).child = some np by rw [hp]; rfl)
    rw [hp] at hok
    cases ok <;> refine frees_slot rfl ⟨fun h1 => ?_, fun h1 => ?_⟩ c
    · cases hok.1.symm.trans h1
    · cases hok.2.symm.trans h1
    · cases hok.1.symm.trans h1
    · cases hok.2.symm.trans h1
  | @forkCopy p np ok _ hp =>
    have hok := hplace (show (s.place p).child = some np by rw [hp]; rfl)
    rw [hp] at hok
    cases ok with
    | false =>
      exact frees_slot rfl ⟨fun _ _ => .inr ⟨p, rfl, hp⟩, fun h1 => by cases hok.2.symm.trans h1⟩ c
    | true =>
      have hproc : (forkCopy p np true s).proc np = { s.proc np with pgdir := true, parent := some p } :=
        update_self _ _ _
      refine frees_slot rfl ⟨fun _ h2 => ?_, fun h1 => by cases hok.2.symm.trans h1⟩ c
      rw [hproc] at h2
      cases hok.1.symm.trans h2
  | @exitEnd p _ _ =>
    have he := exitEnd_exited initproc p s
    exact frees_same (he.kstack c) (he.pgdir c)
  | @wait p _ _ =>
    rw [waitRound]
    split
    next z hfind => exact frees_slot rfl ⟨fun _ _ => .inl ⟨p, rfl, hfind⟩, fun _ _ => ⟨p, rfl, hfind⟩⟩ c
    next =>
      split
      · exact frees_same rfl rfl
      · exact frees_kept rfl (by exact ⟨rfl, rfl⟩) c
  | kill =>
    rw [kill]
    split
    next => exact frees_same rfl rfl
    next => exact frees_kept rfl (by exact ⟨rfl, rfl⟩) c
  | _ => exact frees_kept rfl (by exact ⟨rfl, rfl⟩) c

/-- **`exit` and `wait` hand over every child exactly once**, in every run of any processes. Every process has
    a parent that is neither unused nor a zombie; no child is returned by two calls of `wait`, and the one that
    returns it is made by the process that forked it, or by init after that one has exited; `wait` returns
    -1 only without children or to a process that has been killed; a step frees a page of a slot exactly when the
    slot has the page before and not after, and an unused slot has none; and nobody sleeps in `wait` who has a zombie child. -/
theorem child_handover (h : Reach initproc (fun _ _ => True) s) :
    (∀ p, p ≠ initproc → (s.proc p).state ≠ .unused → (s.proc p).state ≠ .embryo →
      ∃ q, (s.proc p).parent = some q ∧ (s.proc q).state ≠ .unused ∧ (s.proc q).state ≠ .zombie) ∧
    ((s.trace.filterMap child).Nodup ∧ ∀ caller pid w e, reaped caller pid w e ∈ s.trace →
      caller = e.forker ∨ (caller = s.ids initproc ∧ Gone s e.forker)) ∧
    (∀ kids flag, alone kids flag ∈ s.trace → kids = false ∨ flag = true) ∧
    ((∀ p, (s.proc p).state = .unused → (s.proc p).kstack = false ∧ (s.proc p).pgdir = false) ∧
      ∀ a s', step initproc a s = some s' →
        (∀ c, FreesStack a s c ↔ (s.proc c).kstack = true ∧ (s'.proc c).kstack = false) ∧
        (∀ c, FreesTable a s c ↔ (s.proc c).pgdir = true ∧ (s'.proc c).pgdir = false)) ∧
    (∀ p c, (s.proc p).state = .sleeping → s.place p = .waiting → (s.proc c).parent = some p →
      (s.proc c).state ≠ .zombie) := by
  have hs := reach_sound h
  refine ⟨fun p hp h1 h2 => ?_, ⟨hs.numbers.once, fun caller pid w e he => ?_⟩,
    fun kids flag he => reach_honest h _ he, ⟨fun p hp => (hs.pages.slots p).2 hp, fun a s' hstep =>
      ⟨fun c => ⟨freesStack_held hs hstep, fun ⟨h1, h2⟩ => (takes_frees hs (step_takes hstep) c).1 h1 h2⟩,
       fun c => ⟨fun hc => ?_, fun ⟨h1, h2⟩ => (takes_frees hs (step_takes hstep) c).2 h1 h2⟩⟩⟩,
    fun p c h1 h2 => (hs.restful p h1 h2).2 c⟩
  · have hl : Live (s.proc p) ∨ (s.proc p).state = .zombie := by
      cases hst : (s.proc p).state with
      | unused => exact absurd hst h1
      | embryo => exact absurd hst h2
      | sleeping => exact .inl (.inl hst)
      | runnable => exact .inl (.inr (.inl hst))
      | running => exact .inl (.inr (.inr hst))
      | zombie => exact .inr rfl
    obtain ⟨q, hq⟩ := hs.family.has p hp hl
    have hlive := hs.family.alive p q hq
    exact ⟨q, hq, live_used hlive, fun hz => not_live _ _ hz (.inr (.inr rfl)) hlive⟩
  · rw [hs.numbers.first]
    exact (hs.numbers.ends caller pid w e he).2.2.2
  · obtain ⟨-, h1, -, h2⟩ := freesTable_held hs hstep hc
    exact ⟨h1, h2⟩

end Run

/-- A child that is forked, exits and is waited for: its number is handed over once. -/
theorem child_handover_one : ∃ s, Reach slot0 (fun _ _ => True) s ∧
    reaped 0 2 7 ⟨1, 0, 7, false⟩ ∈ s.trace ∧ (s.trace.filterMap child).Nodup := by
  obtain ⟨s, hr, he⟩ := @reach_reaped false 7 (.reaped 0 2 7 ⟨1, 0, 7, false⟩) ⟨_, rfl, by decide +kernel⟩
  exact ⟨s, hr, he, (child_handover hr).2.1.1⟩

end Xv6Proc
