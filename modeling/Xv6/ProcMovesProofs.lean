import Xv6.ProcTableCodeProofs

/-!
# The steps that matter to a process and its parent

Most steps leave the families of the processes alone: they change the state of a live process, or words that nothing
here reads. `Moves` names the others: the slot of a child is taken, filled and given back, the child is born, a
process exits, and a zombie is handed over.
-/

namespace Xv6Proc

open Function List Proc

section Frame

variable {p : Slot} {proc : Slot → Proc}

theorem update_field {α : Type} (g : Proc → α) {q : Proc} (h : g q = g (proc p)) (c : Slot) :
    g (update proc p q c) = g (proc c) := by
  rw [update_apply]
  split_ifs with hc
  · subst hc
    rw [h]
  · rfl

theorem wakeup1_field {α : Type} (g : Proc → α) (h : ∀ q : Proc, g { q with state := .runnable } = g q)
    (chan : Chan) (c : Slot) : g (wakeup1 proc chan c) = g (proc c) := by
  rw [wakeup1]
  split
  · exact h _
  · rfl

end Frame

/-- The slot for the child. -/
def Place.child : Place → Option Slot
  | .taken np => some np
  | .stacked np => some np
  | .copied np => some np
  | _ => none

/-- A process that goes somewhere without a child. -/
theorem child_goto {place : Slot → Place} {p : Slot} {d : Place} (hd : d.child = none) (c np : Slot)
    (h : (update place p d c).child = some np) : c ≠ p ∧ (place c).child = some np := by
  rw [update_apply] at h
  split_ifs at h with hc
  · rw [hd] at h
    cases h
  · exact ⟨hc, h⟩

/-- A process that is neither a zombie nor still being made. -/
def Live (q : Proc) : Prop := q.state = .sleeping ∨ q.state = .runnable ∨ q.state = .running

theorem not_live (q : Proc) (x : ProcState) (h : q.state = x) (hx : x = .unused ∨ x = .embryo ∨ x = .zombie) :
    ¬ Live q := by
  subst h
  rintro (h | h | h) <;> rcases hx with hx | hx | hx <;> exact nomatch h.symm.trans hx

/-! ## Steps that leave the families alone -/

/-- Only the scheduling of live processes changes, and words of no interest here. -/
structure Quiet (proc proc' : Slot → Proc) : Prop where
  parent : ∀ c, (proc' c).parent = (proc c).parent
  kstack : ∀ c, (proc' c).kstack = (proc c).kstack
  pgdir : ∀ c, (proc' c).pgdir = (proc c).pgdir
  state : ∀ c, (proc' c).state = (proc c).state ∨ (Live (proc c) ∧ Live (proc' c))

section Quiet

variable {proc proc' proc'' : Slot → Proc} {p c : Slot} {q : Proc} {x : ProcState}

theorem Quiet.refl (proc : Slot → Proc) : Quiet proc proc :=
  ⟨fun _ => rfl, fun _ => rfl, fun _ => rfl, fun _ => .inl rfl⟩

theorem Quiet.live (h : Quiet proc proc') (c : Slot) : Live (proc' c) ↔ Live (proc c) := by
  rcases h.state c with hc | ⟨h1, h2⟩
  · rw [Live, Live, hc]
  · exact ⟨fun _ => h1, fun _ => h2⟩

theorem Quiet.dead (h : Quiet proc proc') (hx : x = .unused ∨ x = .embryo ∨ x = .zombie) (c : Slot) :
    (proc' c).state = x ↔ (proc c).state = x := by
  rcases h.state c with hc | ⟨h1, h2⟩
  · rw [hc]
  · exact ⟨fun hc => absurd h2 (not_live _ x hc hx), fun hc => absurd h1 (not_live _ x hc hx)⟩

theorem quiet_update (h1 : q.parent = (proc p).parent) (h2 : q.kstack = (proc p).kstack)
    (h3 : q.pgdir = (proc p).pgdir) (h4 : q.state = (proc p).state ∨ (Live (proc p) ∧ Live q)) :
    Quiet proc (update proc p q) := by
  refine ⟨fun c => update_field parent h1 c, fun c => update_field kstack h2 c,
    fun c => update_field pgdir h3 c, fun c => ?_⟩
  rw [update_apply]
  split_ifs with hc
  · subst hc
    exact h4
  · exact .inl rfl

theorem quiet_wakeup1 (chan : Chan) : Quiet proc (wakeup1 proc chan) := by
  refine ⟨wakeup1_field parent (fun _ => rfl) chan, wakeup1_field kstack (fun _ => rfl) chan,
    wakeup1_field pgdir (fun _ => rfl) chan, fun c => ?_⟩
  rw [wakeup1]
  split
  next h => exact .inr ⟨.inl h.1, .inr (.inl rfl)⟩
  next => exact .inl rfl

theorem quiet_wakeParent (p : Slot) : Quiet proc (wakeParent p proc) := by
  rw [wakeParent]
  cases (proc p).parent with
  | none => exact .refl proc
  | some q => exact quiet_wakeup1 _

end Quiet

/-- A child that `wait` has returned. -/
def Event.child : Event → Option Nat
  | .reaped _ _ _ e => some e.child
  | _ => none

/-- The step makes no process, ends none and hands none over. -/
structure Still (s s' : Sys) : Prop where
  quiet : Quiet s.proc s'.proc
  place : ∀ p, s'.place p = s.place p ∨ (s'.place p).child = none
  ids : s'.ids = s.ids
  births : s'.births = s.births
  forker : s'.forker = s.forker
  trace : s'.trace = s.trace ∨ ∃ e : Event, e.child = none ∧ s'.trace = e :: s.trace
  rest : ∀ p, (s'.proc p).state = .sleeping → s'.place p = .waiting →
    ((s.proc p).state = .sleeping ∧ s.place p = .waiting ∧ (s'.proc p).chan = (s.proc p).chan) ∨
    ((s'.proc p).chan = some (.proc p) ∧ ∀ c, (s.proc c).parent = some p → (s.proc c).state ≠ .zombie)

/-- The slot that `fork` gives back. -/
def giveBack (p np : Slot) (s : Sys) : Sys :=
  (s.modify np fun q => { q with kstack := false, state := .unused }).goto p .user

/-- The table after `allocproc` has taken the slot `np`. -/
def takeSlot (p np : Slot) (s : Sys) : Sys :=
  { (s.modify np fun q => { q with state := .embryo, pid := s.nextpid }).goto p (.taken np) with
    nextpid := s.nextpid + 1
    ids := update s.ids np s.births
    births := s.births + 1
    forker := update s.forker np (s.ids p) }

/-- The steps that matter to the families. -/
inductive Moves (initproc : Slot) (s : Sys) : Sys → Prop where
  | still {s' : Sys} (h : Still s s') (hi : s'.place initproc = .exiting → s.place initproc = .exiting) :
      Moves initproc s s'
  | take {p np : Slot} (hr : Runs s p) (hp : s.place p = .user) (hf : (s.proc np).state = .unused) :
      Moves initproc s (takeSlot p np s)
  | stack {p np : Slot} (hr : Runs s p) (hp : s.place p = .taken np) :
      Moves initproc s (allocStack p np true s)
  | back {p np : Slot} (hr : Runs s p) (hp : s.place p = .taken np ∨ s.place p = .stacked np) :
      Moves initproc s (giveBack p np s)
  | copy {p np : Slot} (hr : Runs s p) (hp : s.place p = .stacked np) : Moves initproc s (forkCopy p np true s)
  | born {p np : Slot} (hr : Runs s p) (hp : s.place p = .copied np) : Moves initproc s (forkDone p np s)
  | exit {p : Slot} (hr : Runs s p) (hp : s.place p = .exiting) : Moves initproc s (exitEnd initproc p s)
  | reap {p c : Slot} (hr : Runs s p) (hc : (s.proc c).parent = some p) (hz : (s.proc c).state = .zombie) :
      Moves initproc s (reap p c s)

theorem Still.place_child {s s' : Sys} {p np : Slot} (h : Still s s') (hc : (s'.place p).child = some np) : s'.place p = s.place p := by
  rcases h.place p with hp | hp
  · exact hp
  · rw [hp] at hc
    cases hc

/-- A step of one process that stays alive, at a place of its own outside `fork`. -/
theorem still_update {s s' : Sys} {p : Slot} {q : Proc} (h1 : s'.proc = update s.proc p q)
    (hq : q.parent = (s.proc p).parent ∧ q.kstack = (s.proc p).kstack ∧ q.pgdir = (s.proc p).pgdir)
    (hl : q.state = (s.proc p).state ∨ (Live (s.proc p) ∧ Live q))
    (hplace : ∀ c, c ≠ p → s'.place c = s.place c) (hp : s'.place p = s.place p ∨ (s'.place p).child = none)
    (hids : s'.ids = s.ids ∧ s'.births = s.births ∧ s'.forker = s.forker)
    (htrace : s'.trace = s.trace ∨ ∃ e : Event, e.child = none ∧ s'.trace = e :: s.trace)
    (hrest : q.state = .sleeping → s'.place p = .waiting →
      ((s.proc p).state = .sleeping ∧ s.place p = .waiting ∧ q.chan = (s.proc p).chan) ∨
      (q.chan = some (.proc p) ∧ ∀ c, (s.proc c).parent = some p → (s.proc c).state ≠ .zombie)) : Still s s' := by
  refine ⟨h1 ▸ quiet_update hq.1 hq.2.1 hq.2.2 hl, fun c => ?_, hids.1, hids.2.1, hids.2.2, htrace, fun c hc hw => ?_⟩
  · by_cases hcp : c = p
    · rw [hcp]; exact hp
    · exact .inl (hplace c hcp)
  · rw [h1] at hc ⊢
    rw [update_apply] at hc ⊢
    split_ifs at hc ⊢ with hcp
    · subst hcp
      exact hrest hc hw
    · exact .inl ⟨hc, (hplace c hcp) ▸ hw, rfl⟩

theorem child_update_self {place : Slot → Place} {p : Slot} {d : Place} (hd : d.child = none) :
    (update place p d p).child = none := by
  rw [update_self]
  exact hd

theorem takes_moves {initproc : Slot} {a : Act} {s s' : Sys} (ht : Takes initproc s a s') : Moves initproc s s' := by
  cases ht with
  | @run p hr =>
    refine .still (still_update rfl ⟨rfl, rfl, rfl⟩ (.inr ⟨.inr (.inl hr), .inr (.inr rfl)⟩) (fun _ _ => rfl)
      (.inl rfl) ⟨rfl, rfl, rfl⟩ (.inl rfl) nofun) id
  | @yield p hr =>
    refine .still (still_update rfl ⟨rfl, rfl, rfl⟩ (.inr ⟨.inr (.inr hr), .inr (.inl rfl)⟩) (fun _ _ => rfl)
      (.inl rfl) ⟨rfl, rfl, rfl⟩ (.inl rfl) nofun) id
  | @sleep p c hr hp =>
    refine .still (still_update rfl ⟨rfl, rfl, rfl⟩ (.inr ⟨.inr (.inr hr), .inl rfl⟩) (fun _ _ => rfl)
      (.inl rfl) ⟨rfl, rfl, rfl⟩ (.inl rfl) fun _ hw => ?_) id
    rcases hp with hp | hp <;> exact nomatch hp.symm.trans hw
  | @trap p hr hp =>
    refine .still (still_update rfl ⟨rfl, rfl, rfl⟩ (.inl rfl) (fun _ _ => rfl)
      (.inl rfl) ⟨rfl, rfl, rfl⟩ (.inl rfl) fun _ hw => ?_) id
    cases hp.symm.trans hw
  | @wakeup c =>
    refine .still ⟨quiet_wakeup1 _, fun _ => .inl rfl, rfl, rfl, rfl, .inl rfl, fun p hs hw => ?_⟩ id
    have hs' : (wakeup1 s.proc (.other c) p).state = .sleeping := hs
    have hsame : wakeup1 s.proc (.other c) p = s.proc p := by
      rw [wakeup1] at hs' ⊢
      split at hs'
      next => cases hs'
      next hne => exact if_neg hne
    rw [hsame] at hs'
    exact .inl ⟨hs', hw, congrArg chan hsame⟩
  | @allocproc p hr hp =>
    rw [allocproc]
    split
    next => exact .still ⟨.refl _, fun _ => .inl rfl, rfl, rfl, rfl, .inl rfl, fun _ h1 h2 => .inl ⟨h1, h2, rfl⟩⟩ id
    next np hfind =>
      have hfree : (s.proc np).state = .unused := by simpa using find?_some hfind
      exact .take hr hp hfree
  | @allocStack p np ok hr hp =>
    cases ok with
    | true => exact .stack hr hp
    | false => exact .back hr (.inl hp)
  | @forkCopy p np ok hr hp =>
    cases ok with
    | true => exact .copy hr hp
    | false => exact .back hr (.inr hp)
  | @forkDone p np hr hp => exact .born hr hp
  | @exit p v hr hp hi =>
    refine .still (still_update rfl ⟨rfl, rfl, rfl⟩ (.inl rfl) (fun c hc => update_of_ne hc _ _)
      (.inr ?_) ⟨rfl, rfl, rfl⟩ (.inl rfl) fun _ hw => ?_) fun hx => ?_
    · exact child_update_self rfl
    · have hw' : update s.place p .exiting p = .waiting := hw
      rw [update_self] at hw'
      cases hw'
    · have hx' : update s.place p .exiting initproc = .exiting := hx
      rwa [update_of_ne hi.symm] at hx'
  | @exitEnd p hr hp => exact .exit hr hp
  | @wait p hr hp =>
    rw [waitRound]
    split
    next c hfind =>
      have hc := find?_some hfind
      simp only [decide_eq_true_eq] at hc
      exact .reap hr hc.1 hc.2
    next hfind =>
      have hgo : ∀ d : Place, d ≠ .exiting → update s.place p d initproc = .exiting → s.place initproc = .exiting := by
        intro d hd hx
        by_cases hi : initproc = p
        · rw [hi, update_self] at hx
          exact absurd hx hd
        · rwa [update_of_ne hi] at hx
      split
      · refine .still ⟨.refl _, fun c => ?_, rfl, rfl, rfl, .inr ⟨_, rfl, rfl⟩, fun c h1 h2 => ?_⟩
          (hgo .user (by decide))
        · by_cases hcp : c = p
          · rw [hcp]
            exact .inr (child_update_self rfl)
          · exact .inl (update_of_ne hcp _ _)
        · have h2' : update s.place p .user c = .waiting := h2
          rw [update_apply] at h2'
          split_ifs at h2'
          exact .inl ⟨h1, h2', rfl⟩
      · refine .still (still_update rfl ⟨rfl, rfl, rfl⟩ (.inr ⟨.inr (.inr hr), .inl rfl⟩)
          (fun c hc => update_of_ne hc _ _) (.inr (child_update_self rfl))
          ⟨rfl, rfl, rfl⟩ (.inl rfl) fun _ _ => .inr ⟨rfl, fun c hc hz => ?_⟩) (hgo .waiting (by decide))
        have := find?_eq_none.mp hfind c (mem_finRange c)
        exact this (decide_eq_true ⟨hc, hz⟩)
  | @kill p pid hr hp =>
    rw [kill]
    split
    next =>
      exact .still ⟨.refl _, fun _ => .inl rfl, rfl, rfl, rfl, .inr ⟨_, rfl, rfl⟩, fun _ h1 h2 => .inl ⟨h1, h2, rfl⟩⟩ id
    next c hfind =>
      refine .still (still_update rfl ⟨rfl, rfl, rfl⟩ ?_ (fun _ _ => rfl) (.inl rfl) ⟨rfl, rfl, rfl⟩
        (.inr ⟨_, rfl, rfl⟩) fun hs => ?_) id
      · by_cases hs : (s.proc c).state = .sleeping
        · refine .inr ⟨.inl hs, .inr (.inl ?_)⟩
          exact if_pos hs
        · exact .inl (if_neg hs)
      · have hs' : (if (s.proc c).state = .sleeping then ProcState.runnable else (s.proc c).state) = .sleeping := hs
        split at hs'
        next => cases hs'
        next hne => exact absurd hs' hne

/-! ## What `exit` does to the table -/

/-- Process `p` is a zombie, its children are init's, and who has to know has been woken up. -/
structure Exited (initproc p : Slot) (proc proc' : Slot → Proc) : Prop where
  parent : ∀ c, (proc' c).parent = if (proc c).parent = some p then some initproc else (proc c).parent
  kstack : ∀ c, (proc' c).kstack = (proc c).kstack
  pgdir : ∀ c, (proc' c).pgdir = (proc c).pgdir
  zombie : (proc' p).state = .zombie
  state : ∀ c, c ≠ p → (proc' c).state = (proc c).state ∨ (Live (proc c) ∧ Live (proc' c))
  asleep : ∀ c, (proc' c).state = .sleeping → (proc c).state = .sleeping ∧ (proc' c).chan = (proc c).chan ∧
    ((proc p).parent = some c → (proc c).chan ≠ some (.proc c)) ∧
    ((∃ z, (proc z).parent = some p ∧ (proc z).state = .zombie) → (proc c).chan ≠ some (.proc initproc))

section Exit

variable {proc : Slot → Proc}

theorem wakeup1_asleep {chan : Chan} {c : Slot} (h : (wakeup1 proc chan c).state = .sleeping) :
    wakeup1 proc chan c = proc c ∧ (proc c).state = .sleeping ∧ (proc c).chan ≠ some chan := by
  by_cases hw : (proc c).state = .sleeping ∧ (proc c).chan = some chan
  · rw [wakeup1, if_pos hw] at h
    cases h
  · have hsame : wakeup1 proc chan c = proc c := if_neg hw
    rw [hsame] at h
    exact ⟨hsame, h, fun hc => hw ⟨h, hc⟩⟩

theorem wakeParent_asleep {p c : Slot} (h : (wakeParent p proc c).state = .sleeping) :
    wakeParent p proc c = proc c ∧ (proc c).state = .sleeping ∧
      ((proc p).parent = some c → (proc c).chan ≠ some (.proc c)) := by
  rw [wakeParent] at h ⊢
  cases hp : (proc p).parent with
  | none =>
    rw [hp] at h
    exact ⟨rfl, h, nofun⟩
  | some q =>
    rw [hp] at h
    obtain ⟨h1, h2, h3⟩ := wakeup1_asleep h
    refine ⟨h1, h2, fun hc => ?_⟩
    rw [← Option.some.inj hc]
    rw [← Option.some.inj hc] at h3
    exact h3

/-- The children of `p` are init's. -/
def passOn (initproc p : Slot) (proc : Slot → Proc) : Slot → Proc := fun c =>
  if (proc c).parent = some p then { proc c with parent := some initproc } else proc c

theorem passOn_field {α : Type} (g : Proc → α) (h : ∀ (q : Proc) (x : Option Slot), g { q with parent := x } = g q)
    (initproc p c : Slot) : g (passOn initproc p proc c) = g (proc c) := by
  rw [passOn]
  split
  · exact h _ _
  · rfl

theorem passOn_parent (initproc p c : Slot) : (passOn initproc p proc c).parent
    = if (proc c).parent = some p then some initproc else (proc c).parent := by
  rw [passOn]
  split
  · rfl
  · rfl

/-- `abandon` passes the children on, and wakes init if one of them is a zombie. -/
theorem abandon_spec (proc : Slot → Proc) (initproc p : Slot) : Quiet (passOn initproc p proc) (abandon initproc p proc) ∧
    ∀ c, (abandon initproc p proc c).state = .sleeping → abandon initproc p proc c = passOn initproc p proc c ∧
      ((∃ z, (proc z).parent = some p ∧ (proc z).state = .zombie) → (proc c).chan ≠ some (.proc initproc)) := by
  have hany : (table.any fun c => decide ((proc c).parent = some p ∧ (proc c).state = .zombie)) = true ↔
      ∃ z, (proc z).parent = some p ∧ (proc z).state = .zombie := by
    rw [any_eq_true]
    constructor
    · rintro ⟨z, -, hz⟩
      exact ⟨z, of_decide_eq_true hz⟩
    · rintro ⟨z, hz⟩
      exact ⟨z, mem_finRange z, decide_eq_true hz⟩
  by_cases hz : (table.any fun c => decide ((proc c).parent = some p ∧ (proc c).state = .zombie)) = true
  · have heq : abandon initproc p proc = wakeup1 (passOn initproc p proc) (.proc initproc) := if_pos hz
    rw [heq]
    refine ⟨quiet_wakeup1 _, fun c hc => ?_⟩
    obtain ⟨h1, -, h3⟩ := wakeup1_asleep hc
    rw [passOn_field chan (fun _ _ => rfl)] at h3
    exact ⟨h1, fun _ => h3⟩
  · have heq : abandon initproc p proc = passOn initproc p proc := if_neg hz
    rw [heq]
    exact ⟨.refl _, fun c _ => ⟨rfl, fun hex => absurd (hany.mpr hex) hz⟩⟩

/-- What `exit` keeps of a process. -/
theorem exitEnd_field {α : Type} (g : Proc → α) (h1 : ∀ (q : Proc) (x : ProcState), g { q with state := x } = g q)
    (h2 : ∀ (q : Proc) (x : Option Slot), g { q with parent := x } = g q) {initproc p : Slot} {s : Sys} (c : Slot) :
    g ((exitEnd initproc p s).proc c) = g (s.proc c) := by
  have hwake : ∀ (proc : Slot → Proc) (chan : Chan) (c : Slot), g (wakeup1 proc chan c) = g (proc c) :=
    fun _ => wakeup1_field g fun q => h1 q _
  have hparent : ∀ c, g (wakeParent p s.proc c) = g (s.proc c) := by
    intro c
    rw [wakeParent]
    cases (s.proc p).parent with
    | none => rfl
    | some q => exact hwake _ _ c
  have habandon : ∀ proc : Slot → Proc, g (abandon initproc p proc c) = g (proc c) := by
    intro proc
    rw [abandon]
    split
    · exact (hwake _ _ c).trans (passOn_field g h2 initproc p c)
    · exact passOn_field g h2 initproc p c
  exact (update_field g (h1 _ _) c).trans ((habandon _).trans (hparent c))

theorem exitEnd_exited (initproc p : Slot) (s : Sys) : Exited initproc p s.proc (exitEnd initproc p s).proc := by
  have hq : Quiet s.proc (wakeParent p s.proc) := quiet_wakeParent p
  obtain ⟨ha, hs⟩ := abandon_spec (wakeParent p s.proc) initproc p
  generalize hw : wakeParent p s.proc = proc1 at hq ha hs
  generalize hb : abandon initproc p proc1 = proc2 at ha hs
  have hproc : (exitEnd initproc p s).proc = update proc2 p { proc2 p with state := .zombie } := by
    rw [← hb, ← hw]
    rfl
  refine ⟨fun c => ?_, exitEnd_field kstack (fun _ _ => rfl) fun _ _ => rfl,
    exitEnd_field pgdir (fun _ _ => rfl) fun _ _ => rfl, ?_, fun c hc => ?_, fun c hc => ?_⟩
  · rw [hproc]
    refine (update_field parent (by rfl) c).trans ?_
    rw [ha.parent, passOn_parent, hq.parent]
  · rw [hproc, update_self]
  · rw [hproc, update_of_ne hc]
    have hpass : (passOn initproc p proc1 c).state = (proc1 c).state := passOn_field state (fun _ _ => rfl) _ _ _
    rcases ha.state c with h1 | ⟨h1, h2⟩
    · rw [hpass] at h1
      rcases hq.state c with h3 | ⟨h3, h4⟩
      · exact .inl (h1.trans h3)
      · refine .inr ⟨h3, ?_⟩
        rw [Live, h1]
        exact h4
    · rw [Live, hpass] at h1
      exact .inr ⟨(hq.live c).mp h1, h2⟩
  · have hne : c ≠ p := by
      intro heq
      rw [hproc, heq, update_self] at hc
      cases hc
    rw [hproc, update_of_ne hne] at hc ⊢
    obtain ⟨h1, h2⟩ := hs c hc
    have h3 : (proc1 c).state = .sleeping := by
      rw [h1, passOn_field state (fun _ _ => rfl)] at hc
      exact hc
    have h3' : (wakeParent p s.proc c).state = .sleeping := by rw [hw]; exact h3
    obtain ⟨h4, h5, h6⟩ := wakeParent_asleep h3'
    rw [hw] at h4
    refine ⟨h5, ?_, h6, ?_⟩
    · rw [h1, passOn_field chan (fun _ _ => rfl), h4]
    · rintro ⟨z, hz1, hz2⟩
      rw [← h4]
      refine h2 ⟨z, by rw [hq.parent]; exact hz1, ?_⟩
      exact (hq.dead (.inr (.inr rfl)) z).mpr hz2

end Exit

/-! ## The slots that `fork` has taken -/

/-- A slot that `fork` is working on is an embryo, and one process works on it. -/
structure Embryos (s : Sys) : Prop where
  held : ∀ p np, (s.place p).child = some np → (s.proc np).state = .embryo
  single : ∀ p q np, (s.place p).child = some np → (s.place q).child = some np → p = q

section Embryos

variable {initproc : Slot} {s s' : Sys} {p np : Slot} {q : Proc}

theorem Embryos.keep (h : Embryos s) (h1 : ∀ c, (s.proc c).state = .embryo → (s'.proc c).state = .embryo)
    (h2 : ∀ p np, (s'.place p).child = some np → (s.place p).child = some np) : Embryos s' :=
  ⟨fun p np hp => h1 np (h.held p np (h2 p np hp)), fun p q np hp hq => h.single p q np (h2 p np hp) (h2 q np hq)⟩

/-- The child has its place, and goes on in another one of `fork`. -/
theorem Embryos.goOn (h : Embryos s) {d : Place} (hp : (s.place p).child = some np) (hd : d.child = some np)
    (h1 : s'.proc = update s.proc np q) (hq : q.state = .embryo) (h2 : s'.place = update s.place p d) : Embryos s' := by
  refine h.keep (fun c hc => ?_) fun c np' hc => ?_
  · rw [h1, update_apply]
    split_ifs
    · exact hq
    · exact hc
  · rw [h2, update_apply] at hc
    split_ifs at hc with hcp
    · rw [hd] at hc
      rw [hcp, hp, hc]
    · exact hc

/-- The child is let go. -/
theorem Embryos.letGo (h : Embryos s) (hp : (s.place p).child = some np) (h1 : s'.proc = update s.proc np q)
    (h2 : ∀ c x, (s'.place c).child = some x → c ≠ p ∧ (s.place c).child = some x) : Embryos s' := by
  refine ⟨fun c x hc => ?_, fun c d x hc hd => h.single c d x (h2 c x hc).2 (h2 d x hd).2⟩
  obtain ⟨hne, hx⟩ := h2 c x hc
  have hxn : x ≠ np := fun heq => hne (h.single c p np (heq ▸ hx) hp)
  rw [h1, update_of_ne hxn]
  exact h.held c x hx

theorem moves_embryos (h : Embryos s) (hm : Moves initproc s s') : Embryos s' := by
  cases hm with
  | still hst _ =>
    refine h.keep (fun c => (hst.quiet.dead (.inr (.inl rfl)) c).mpr) fun c x hc => ?_
    rw [← hst.place_child hc]
    exact hc
  | @take p np hr hp hu =>
    have hnone : ∀ c, (s.place c).child ≠ some np :=
      fun c hc => nomatch hu.symm.trans (h.held c np hc)
    refine ⟨fun c x hc => ?_, fun c d x hc hd => ?_⟩
    · show (update s.proc np _ x).state = .embryo
      rw [update_apply]
      split_ifs with hx
      · rfl
      · by_cases hcp : c = p
        · subst hcp
          have hc' : (update s.place c (.taken np) c).child = some x := hc
          rw [update_self] at hc'
          exact absurd (Option.some.inj hc').symm hx
        · have hc' : (update s.place p (.taken np) c).child = some x := hc
          rw [update_of_ne hcp] at hc'
          exact h.held c x hc'
    · have hc' : (update s.place p (.taken np) c).child = some x := hc
      have hd' : (update s.place p (.taken np) d).child = some x := hd
      by_cases hcp : c = p <;> by_cases hdp : d = p
      · rw [hcp, hdp]
      · rw [hcp, update_self] at hc'
        rw [update_of_ne hdp] at hd'
        exact absurd (hd'.trans hc'.symm) (hnone d)
      · rw [hdp, update_self] at hd'
        rw [update_of_ne hcp] at hc'
        exact absurd (hc'.trans hd'.symm) (hnone c)
      · rw [update_of_ne hcp] at hc'
        rw [update_of_ne hdp] at hd'
        exact h.single c d x hc' hd'
  | @stack p np hr hp =>
    have hchild : (s.place p).child = some np := by rw [hp]; rfl
    exact h.goOn (d := .stacked np) hchild rfl rfl (h.held p np hchild) rfl
  | @back p np hr hp =>
    have hchild : (s.place p).child = some np := by rcases hp with hp | hp <;> rw [hp] <;> rfl
    exact h.letGo hchild rfl (child_goto rfl)
  | @copy p np hr hp =>
    have hchild : (s.place p).child = some np := by rw [hp]; rfl
    exact h.goOn (d := .copied np) hchild rfl rfl (h.held p np hchild) rfl
  | @born p np hr hp =>
    have hchild : (s.place p).child = some np := by rw [hp]; rfl
    refine h.letGo hchild rfl fun c x hc => ?_
    exact child_goto rfl c x (child_goto rfl c x hc).2
  | @exit p hr hp =>
    refine h.keep (fun c hc => ?_) fun c x hc => (child_goto rfl c x hc).2
    have hcp : c ≠ p := by
      rintro rfl
      cases hc.symm.trans hr
    rcases (exitEnd_exited initproc p s).state c hcp with heq | ⟨hl, -⟩
    · exact heq.trans hc
    · exact absurd hl (not_live _ _ hc (.inr (.inl rfl)))
  | @reap p c hr hc hz =>
    refine h.keep (fun x hx => ?_) fun c x hc => (child_goto rfl c x hc).2
    have hxc : x ≠ c := by
      rintro rfl
      cases hx.symm.trans hz
    exact (congrArg state (update_of_ne hxc _ _)).trans hx

theorem reach_embryos {ok : Act → Sys → Prop} (h : Reach initproc ok s) : Embryos s := by
  induction h with
  | boot => exact ⟨nofun, nofun⟩
  | step _ _ hs ih => exact moves_embryos ih (takes_moves (step_takes hs))

end Embryos

end Xv6Proc
