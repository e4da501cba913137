import Xv6.BcacheStepsProofs

/-!
# Buffer cache coherence

The last part of the invariant: a buffer with valid data has the data last stored to its block,
and a block of which no buffer is dirty is up to date on the disk. The holder of a buffer, the
queue of requests and the interrupt handler together keep it, and coherence of the cache in
every state of every interleaving follows.
-/

namespace Xv6Bcache

open Interleave LinkedRing Xv6Disk Function List Option

set_option linter.unusedSectionVars false

variable {P α : Type} [DecidableEq P]

section Keep

variable {s s' : St P α} {p : P}

/-! ## The data -/

theorem St.to_self (d : Pc) : (s.to p d).pc p = d := by
  exact update_self p d s.pc

theorem St.to_other (d : Pc) {q : P} (hq : q ≠ p) : (s.to p d).pc q = s.pc q := by
  exact update_of_ne hq d s.pc

theorem data_move {d : Pc} {l : Option P} {m : Option (Option P)} (h : DataOk s)
    (hm : Move s p (s.pc p) d l m) : DataOk { s.to p d with lock := l, idelock := m } := by
  have hself : (s.to p d).pc p = d := St.to_self d
  have hother : ∀ q, q ≠ p → (s.to p d).pc q = s.pc q := fun q hq => St.to_other d hq
  refine ⟨?_, ?_, h.dirty, ?_, h.nodup, ?_, ?_, h.first, h.value, h.clean⟩
  · intro b hb
    obtain ⟨q, hq, hc⟩ := h.pend b hb
    refine ⟨q, hq, ?_⟩
    by_cases hqp : q = p
    · subst hqp
      rw [hself]
      intro hd
      rcases hm.cur b hd with hc' | ⟨-, hp⟩
      · exact hc hc'
      · cases hb.symm.trans hp
    · rw [hother q hqp]
      exact hc
  · intro q b hq
    rcases h.ready q b hq with hl | hv
    · by_cases hqp : q = p
      · subst hqp
        rw [hself]
        exact hm.loads b hl
      · rw [hother q hqp]
        exact .inl hl
    · exact .inr hv
  · intro q b hq
    have hq' : ((s.to p d).pc q).asks = some b := hq
    by_cases hqp : q = p
    · subst hqp
      rw [hself] at hq'
      exact hm.asks b hq'
    · rw [hother q hqp] at hq'
      exact h.asks q b hq'
  · intro b hb
    obtain ⟨⟨q, hq⟩, hns⟩ := h.queued b hb
    refine ⟨⟨q, ?_⟩, hns⟩
    by_cases hqp : q = p
    · subst hqp
      rw [hself]
      rcases hm.waits with heq | ⟨-, hout⟩
      · rw [heq]; exact hq
      · exact absurd hb (hout b hq)
    · rw [hother q hqp]
      exact hq
  · intro q b hq
    have hq' : ((s.to p d).pc q).waits = some b := hq
    by_cases hqp : q = p
    · subst hqp
      rw [hself] at hq'
      rcases hm.waits with heq | ⟨hnone, -⟩
      · exact h.waits q b (heq.symm.trans hq')
      · cases hnone.symm.trans hq'
    · rw [hother q hqp] at hq'
      exact h.waits q b hq'

section

variable (h : Inv s)
include h

/-- **A step on one buffer**, by a process that does not wait for the disk and starts nothing there. -/
theorem data_one {b : B} {d : Pc} (hpc : s'.pc = update s.pc p d) (hasks : d.asks = none)
    (hwaits : d.waits = none) (hidle : (s.pc p).waits = none) (hne : ∀ q c, q ≠ p → (s.pc q).cur = some c → c ≠ b)
    (hbuf : ∀ c, c ≠ b → s'.buf c = s.buf c) (hqueue : s'.idequeue = s.idequeue) (hdisk : s'.disk = s.disk)
    (hlast : ∀ c, c ≠ b → inUse (s.buf c).key.1 → s'.last (s.buf c).key = s.last (s.buf c).key)
    (hdirty : (s'.buf b).dirty = true → (s'.buf b).valid = true) (hvalue : (s'.buf b).valid = true →
      inUse (s'.buf b).key.1 ∧ (s'.buf b).data = s'.last (s'.buf b).key)
    (hpend : ∀ c, s'.pending c = true → ∃ q, s'.held q c = true ∧ (s'.pc q).cur ≠ some c)
    (hready : ∀ q c, s'.held q c = true → (s'.pc q).loads = some c ∨ (s'.buf c).valid = true)
    (hclean : ∀ k, inUse k.1 → s'.disk k = s'.last k ∨
      ∃ c, (s'.buf c).key = k ∧ ((s'.buf c).dirty = true ∨ s'.pending c = true)) : DataOk s' := by
  have hself : s'.pc p = d := by rw [hpc, update_self]
  have hother : ∀ q, q ≠ p → s'.pc q = s.pc q := fun q hq => by rw [hpc, update_of_ne hq]
  -- who waits is another process, and waits for another buffer
  have hwaiter : ∀ q c, (s.pc q).waits = some c → q ≠ p ∧ c ≠ b := by
    intro q c hq
    have hqp : q ≠ p := by
      rintro rfl
      cases hidle.symm.trans hq
    exact ⟨hqp, hne q c hqp (waits_cur hq)⟩
  have hin : ∀ c ∈ s.idequeue, c ≠ b := by
    intro c hc
    obtain ⟨⟨q, hq⟩, -⟩ := h.data.queued c hc
    exact (hwaiter q c hq).2
  refine ⟨hpend, hready, ?_, ?_, ?_, ?_, ?_, ?_, ?_, hclean⟩
  · intro c hc
    by_cases hcb : c = b
    · subst hcb
      exact hdirty hc
    · rw [hbuf c hcb] at hc ⊢
      exact h.data.dirty c hc
  · intro q c hq
    by_cases hqp : q = p
    · rw [hqp, hself, hasks] at hq
      cases hq
    · rw [hother q hqp] at hq
      rw [hbuf c (hne q c hqp (asks_cur hq))]
      exact h.data.asks q c hq
  · rw [hqueue]
    exact h.data.nodup
  · intro c hc
    rw [hqueue] at hc
    obtain ⟨⟨q, hq⟩, hns⟩ := h.data.queued c hc
    rw [hbuf c (hin c hc)]
    exact ⟨⟨q, by rw [hother q (hwaiter q c hq).1]; exact hq⟩, hns⟩
  · intro q c hq
    by_cases hqp : q = p
    · rw [hqp, hself, hwaits] at hq
      cases hq
    · rw [hother q hqp] at hq
      rw [hqueue, hbuf c (hne q c hqp (waits_cur hq))]
      exact h.data.waits q c hq
  · intro c hc
    rw [hqueue] at hc
    rw [hdisk, hbuf c (hin c (mem_of_mem_head? hc))]
    exact h.data.first c hc
  · intro c hc
    by_cases hcb : c = b
    · subst hcb
      exact hvalue hc
    · rw [hbuf c hcb] at hc ⊢
      obtain ⟨hu, hval⟩ := h.data.value c hc
      exact ⟨hu, hval.trans (hlast c hcb hu).symm⟩

/-- A process gets a buffer that is neither busy nor dirty if it changes it otherwise. -/
theorem data_get {b : B} {x : Buf α} {k : Key} (hfree : (s.buf b).busy = false)
    (hpc : (s.pc p).cur = none) (hd : x.dirty = true → x.valid = true)
    (hv : x.valid = true → inUse x.key.1 ∧ x.data = s.last x.key)
    (hclean : (s.buf b).dirty = true → x.key = (s.buf b).key ∧ x.dirty = true) :
    DataOk (((s.setBuf b x).hold p b true).to p (.gRel k b)) := by
  have hnp : s.pending b = false := by
    cases hp : s.pending b with
    | false => rfl
    | true =>
      obtain ⟨q, hq, -⟩ := h.data.pend b hp
      cases (h.holds.free hfree q).symm.trans hq
  have hself : update s.pc p (.gRel k b) p = .gRel k b := update_self ..
  have hother : ∀ q, q ≠ p → update s.pc p (.gRel k b) q = s.pc q :=
    fun q hq => update_of_ne hq _ _
  have hbuf : ∀ c, c ≠ b → (((s.setBuf b x).hold p b true).to p (.gRel k b)).buf c = s.buf c :=
    fun c hc => setBuf_ne hc
  have hbufb : (((s.setBuf b x).hold p b true).to p (.gRel k b)).buf b = x := setBuf_self
  have hheld : ∀ q c, (((s.setBuf b x).hold p b true).to p (.gRel k b)).held q c =
      if q = p ∧ c = b then true else s.held q c := fun q c => held_hold (s := s.setBuf b x)
  refine data_one h rfl rfl rfl ?_ (fun q c _ hc => h.holds.cur_ne hfree hc) hbuf rfl rfl (fun _ _ _ => rfl)
    (by rw [hbufb]; exact hd) (by rw [hbufb]; exact hv) ?_ ?_ ?_
  · cases hw : (s.pc p).waits with
    | none => rfl
    | some c => cases hpc.symm.trans (waits_cur hw)
  · intro c hc
    have hcb : c ≠ b := by
      rintro rfl
      cases hc.symm.trans hnp
    obtain ⟨q, hq, hcur⟩ := h.data.pend c hc
    refine ⟨q, ?_, ?_⟩
    · rw [hheld, if_neg fun he => hcb he.2]
      exact hq
    · show (update s.pc p (.gRel k b) q).cur ≠ some c
      by_cases hqp : q = p
      · subst hqp
        rw [hself]
        intro heq
        exact hcb (some.inj heq).symm
      · rw [hother q hqp]
        exact hcur
  · intro q c hq
    rw [hheld] at hq
    show (update s.pc p (.gRel k b) q).loads = some c ∨ _
    by_cases hqc : q = p ∧ c = b
    · obtain ⟨rfl, rfl⟩ := hqc
      rw [hself]
      exact .inl rfl
    · rw [if_neg hqc] at hq
      have hcb : c ≠ b := by
        rintro rfl
        cases (h.holds.free hfree q).symm.trans hq
      rw [hbuf c hcb]
      by_cases hqp : q = p
      · subst hqp
        exact .inr (h.data.ready_out hq hpc)
      · rw [hother q hqp]
        exact h.data.ready q c hq
  · intro k' hk'
    rcases h.data.clean k' hk' with heq | ⟨c, hc, hdp⟩
    · exact .inl heq
    · right
      by_cases hcb : c = b
      · subst hcb
        rcases hdp with hdirty | hp
        · obtain ⟨hkey, hx⟩ := hclean hdirty
          refine ⟨c, ?_, .inl ?_⟩
          · rw [hbufb, hkey]; exact hc
          · rw [hbufb]; exact hx
        · cases hp.symm.trans hnp
      · refine ⟨c, ?_, ?_⟩
        · rw [hbuf c hcb]; exact hc
        · rw [hbuf c hcb]; exact hdp

theorem data_drop {b : B} (hpc : s.pc p = .lBusy b) :
    DataOk (((s.setBuf b { s.buf b with busy := false }).hold p b false).to p .lRel) := by
  have hp : s.held p b = true := h.holds.cur p b (by rw [hpc]; rfl)
  have hself : update s.pc p .lRel p = .lRel := update_self ..
  have hother : ∀ q, q ≠ p → update s.pc p .lRel q = s.pc q :=
    fun q hq => update_of_ne hq _ _
  have hheld : ∀ q c, (((s.setBuf b { s.buf b with busy := false }).hold p b false).to
      p .lRel).held q c = if q = p ∧ c = b then false else s.held q c :=
    fun q c => held_hold (s := s.setBuf b _)
  -- the flags and the data stay
  have hbuf : ∀ c, ∃ f, (((s.setBuf b { s.buf b with busy := false }).hold p b false).to
      p .lRel).buf c = { s.buf c with busy := f } := by
    intro c
    by_cases hc : c = b
    · subst hc
      exact ⟨false, setBuf_self⟩
    · exact ⟨(s.buf c).busy, setBuf_ne hc⟩
  have hne : ∀ q c, q ≠ p → (s.pc q).cur = some c → c ≠ b := by
    rintro q c hqp hc rfl
    exact hqp (h.holds.once q p c (h.holds.cur q c hc) hp)
  refine data_one (b := b) h rfl rfl rfl (by rw [hpc]; rfl) hne (fun c hc => setBuf_ne hc) rfl rfl (fun _ _ _ => rfl)
    ?_ ?_ ?_ ?_ ?_
  · obtain ⟨f, hf⟩ := hbuf b
    rw [hf]
    exact h.data.dirty b
  · obtain ⟨f, hf⟩ := hbuf b
    rw [hf]
    exact h.data.value b
  · intro c hc
    obtain ⟨q, hq, hcur⟩ := h.data.pend c hc
    have hqc : ¬ (q = p ∧ c = b) := by
      rintro ⟨rfl, rfl⟩
      rw [hpc] at hcur
      exact hcur rfl
    refine ⟨q, by rw [hheld, if_neg hqc]; exact hq, ?_⟩
    show (update s.pc p .lRel q).cur ≠ some c
    by_cases hqp : q = p
    · subst hqp
      rw [hself]
      nofun
    · rw [hother q hqp]
      exact hcur
  · intro q c hq
    obtain ⟨f, hf⟩ := hbuf c
    rw [hf]
    rw [hheld] at hq
    split_ifs at hq
    show (update s.pc p .lRel q).loads = some c ∨ _
    rcases h.data.ready q c hq with hl | hv
    · by_cases hqp : q = p
      · subst hqp
        rw [hpc] at hl
        cases hl
      · rw [hother q hqp]
        exact .inl hl
    · exact .inr hv
  · intro k hk
    rcases h.data.clean k hk with heq | ⟨c, hc, hdp⟩
    · exact .inl heq
    · obtain ⟨f, hf⟩ := hbuf c
      exact .inr ⟨c, by rw [hf]; exact hc, by rw [hf]; exact hdp⟩

/-- A process outside of the calls changes a buffer it has, and its data stay what was last
    stored. -/
theorem data_write {b : B} {x : Buf α} {d : Pc} {last : Key → α} {pending : B → Bool}
    (hpc : s.pc p = .out) (hh : s.held p b = true) (hkey : x.key = (s.buf b).key)
    (hvalid : x.valid = (s.buf b).valid) (hd : d = .out ∨ d = .dCheck b none ∧ pending b = false)
    (hlast : ∀ k, k ≠ (s.buf b).key → last k = s.last k) (hdata : x.data = last (s.buf b).key)
    (hpend : ∀ c, c ≠ b → pending c = s.pending c) (hsafe : x.dirty = true ∨ pending b = true) :
    DataOk { (s.setBuf b x).to p d with last := last, pending := pending } := by
  have hcur : (s.pc p).cur = none := by rw [hpc]; rfl
  have hv := h.data.ready_out hh hcur
  have hself : update s.pc p d p = d := update_self ..
  have hother : ∀ q, q ≠ p → update s.pc p d q = s.pc q :=
    fun q hq => update_of_ne hq _ _
  let t := s.setBuf b x
  have hbuf : ∀ c, c ≠ b → t.buf c = s.buf c := fun c hc => setBuf_ne hc
  have hbufb : t.buf b = x := setBuf_self
  have hdpc : d.asks = none ∧ d.waits = none ∧ ∀ c, d.cur = some c → c = b ∧ pending b = false := by
    rcases hd with rfl | ⟨rfl, hp⟩
    · exact ⟨rfl, rfl, nofun⟩
    · exact ⟨rfl, rfl, fun c hc => ⟨(some.inj hc).symm, hp⟩⟩
  -- the calls of the others work on other buffers
  have hne : ∀ q c, (s.pc q).cur = some c → c ≠ b := fun q c hc => h.holds.cur_other hh hcur hc
  refine data_one (b := b) h rfl hdpc.1 hdpc.2.1 (by rw [hpc]; rfl) (fun q c _ => hne q c) hbuf rfl rfl ?_ ?_ ?_ ?_ ?_ ?_
  · exact fun c hcb hu => hlast _ fun heq => hcb (h.keys.uniq c b hu heq)
  · exact fun _ => (congrArg Buf.valid hbufb).trans (hvalid.trans hv)
  · intro _
    show inUse (t.buf b).key.1 ∧ (t.buf b).data = last (t.buf b).key
    rw [hbufb, hkey]
    exact ⟨(h.data.value b hv).1, hdata⟩
  · intro c hc
    by_cases hcb : c = b
    · subst hcb
      refine ⟨p, hh, ?_⟩
      show (update s.pc p d p).cur ≠ some c
      rw [hself]
      intro heq
      cases hc.symm.trans (hdpc.2.2 c heq).2
    · obtain ⟨q, hq, hqc⟩ := h.data.pend c ((hpend c hcb).symm.trans hc)
      refine ⟨q, hq, ?_⟩
      show (update s.pc p d q).cur ≠ some c
      by_cases hqp : q = p
      · subst hqp
        rw [hself]
        exact fun heq => hcb (hdpc.2.2 c heq).1
      · rw [hother q hqp]
        exact hqc
  · intro q c hq
    show (update s.pc p d q).loads = some c ∨ (t.buf c).valid = true
    by_cases hcb : c = b
    · subst hcb
      rw [hbufb, hvalid]
      exact .inr hv
    · rw [hbuf c hcb]
      by_cases hqp : q = p
      · subst hqp
        exact .inr (h.data.ready_out hq hcur)
      · rw [hother q hqp]
        exact h.data.ready q c hq
  · intro k hk
    show s.disk k = last k ∨ ∃ c, (t.buf c).key = k ∧ ((t.buf c).dirty = true ∨ pending c = true)
    by_cases hkb : k = (s.buf b).key
    · refine .inr ⟨b, ?_, ?_⟩
      · rw [hbufb, hkey, hkb]
      · rw [hbufb]
        exact hsafe
    · rw [hlast k hkb]
      rcases h.data.clean k hk with heq | ⟨c, hc, hdp⟩
      · exact .inl heq
      · have hcb : c ≠ b := by
          rintro rfl
          exact hkb hc.symm
        refine .inr ⟨c, ?_, ?_⟩
        · rw [hbuf c hcb]; exact hc
        · rw [hbuf c hcb, hpend c hcb]; exact hdp

/-- `iderw` puts its buffer into the queue, and starts the drive if it is the first there. -/
theorem data_append {b : B} {r : Option Key} {disk : Key → α} (hpc : s.pc p = .dAppend b r)
    (hdisk : (disk = s.disk ∧ (s.idequeue = [] → (s.buf b).dirty = false)) ∨
      ((s.buf b).dirty = true ∧ s.idequeue = [] ∧ disk = update s.disk (drive (s.buf b).key) (s.buf b).data)) :
    DataOk { s.to p (.dWait b r) with idequeue := s.idequeue ++ [b], disk := disk } := by
  have hh : s.held p b = true := h.holds.cur p b (by rw [hpc]; rfl)
  have hself : update s.pc p (.dWait b r) p = .dWait b r := update_self ..
  have hother : ∀ q, q ≠ p → update s.pc p (.dWait b r) q = s.pc q :=
    fun q hq => update_of_ne hq _ _
  have hnot : b ∉ s.idequeue := h.data.not_queued h.holds hh (by rw [hpc]; nofun)
  have hclean : ∀ k, inUse k.1 → disk k = s.disk k ∨ disk k = s.last k := by
    intro k hk
    rcases hdisk with ⟨rfl, -⟩ | ⟨hdirty, -, rfl⟩
    · exact .inl rfl
    · obtain ⟨hu, hval⟩ := h.data.value b (h.data.dirty b hdirty)
      rw [drive_inUse hu]
      by_cases hkb : k = (s.buf b).key
      · rw [hkb, update_self]
        exact .inr hval
      · exact .inl (update_of_ne hkb _ _)
  refine ⟨?_, ?_, h.data.dirty, ?_, ?_, ?_, ?_, ?_, h.data.value, ?_⟩
  · intro c hc
    obtain ⟨q, hq, hqc⟩ := h.data.pend c hc
    refine ⟨q, hq, ?_⟩
    show (update s.pc p (.dWait b r) q).cur ≠ some c
    by_cases hqp : q = p
    · subst hqp
      rw [hpc] at hqc
      rw [hself]
      exact hqc
    · rw [hother q hqp]
      exact hqc
  · intro q c hq
    show (update s.pc p (.dWait b r) q).loads = some c ∨ _
    by_cases hqp : q = p
    · subst hqp
      rw [hself]
      have hl := h.data.ready q c hq
      rw [hpc] at hl
      exact hl
    · rw [hother q hqp]
      exact h.data.ready q c hq
  · intro q c hq
    have hq' : (update s.pc p (.dWait b r) q).asks = some c := hq
    by_cases hqp : q = p
    · subst hqp
      rw [hself] at hq'
      cases hq'
    · rw [hother q hqp] at hq'
      exact h.data.asks q c hq'
  · refine nodup_append.mpr ⟨h.data.nodup, nodup_singleton b, ?_⟩
    rintro c hc c' hc' rfl
    exact hnot (mem_singleton.mp hc' ▸ hc)
  · intro c hc
    rcases mem_append.mp hc with hc | hc
    · obtain ⟨⟨q, hq⟩, hns⟩ := h.data.queued c hc
      refine ⟨⟨q, ?_⟩, hns⟩
      show (update s.pc p (.dWait b r) q).waits = some c
      have hqp : q ≠ p := by
        rintro rfl
        rw [hpc] at hq
        cases hq
      rw [hother q hqp]
      exact hq
    · obtain rfl := mem_singleton.mp hc
      refine ⟨⟨p, ?_⟩, h.data.asks p c (by rw [hpc]; rfl)⟩
      show (update s.pc p (.dWait c r) p).waits = some c
      rw [hself]
      rfl
  · intro q c hq
    have hq' : (update s.pc p (.dWait b r) q).waits = some c := hq
    by_cases hqp : q = p
    · subst hqp
      rw [hself] at hq'
      cases hq'
      exact .inl (mem_append_right _ mem_cons_self)
    · rw [hother q hqp] at hq'
      rcases h.data.waits q c hq' with hc | hc
      · exact .inl (mem_append_left _ hc)
      · exact .inr hc
  · intro c hc hdirty
    by_cases hq : s.idequeue = []
    · have hcb : b = c := by
        have hc' : (s.idequeue ++ [b]).head? = some c := hc
        rw [hq] at hc'
        exact some.inj hc'
      subst hcb
      rcases hdisk with ⟨-, hnd⟩ | ⟨-, -, rfl⟩
      · cases hdirty.symm.trans (hnd hq)
      · exact update_self _ _ _
    · rcases hdisk with ⟨rfl, -⟩ | ⟨-, hnil, -⟩
      · refine h.data.first c ?_ hdirty
        have hc' : (s.idequeue ++ [b]).head? = some c := hc
        rw [head?_append_of_ne_nil _ hq] at hc'
        exact hc'
      · exact absurd hnil hq
  · intro k hk
    rcases hclean k hk with heq | heq
    · rcases h.data.clean k hk with hc | hc
      · exact .inl (heq.trans hc)
      · exact .inr hc
    · exact .inl heq

theorem data_effect (he : Effect p s s') : DataOk s' := by
  cases he with
  | move hm => exact data_move h.data hm
  | @take k b hpc hkey hb =>
    exact data_get (x := { s.buf b with busy := true }) h hb (by rw [hpc]; rfl) (h.data.dirty b)
      (h.data.value b) fun hd => ⟨rfl, hd⟩
  | recycle hpc hb hd =>
    exact data_get h hb (by rw [hpc]; rfl) nofun nofun fun hd' => nomatch hd.symm.trans hd'
  | @relink b hpc =>
    have hcur : ∀ c, Pc.cur (.lBusy b) = some c → (s.pc p).cur = some c := by
      rw [hpc]
      exact fun _ => id
    have hd : DataOk { s.to p (.lBusy b) with lock := some p, idelock := s.idelock } := by
      refine data_move h.data ⟨?_, ?_, nofun, nofun, nofun, fun c hc => .inl (hcur c hc), ?_, nofun, ?_⟩
      · rw [hpc]; exact ⟨fun _ => ⟨rfl, .inr rfl⟩, nofun⟩
      · rw [hpc]; exact ⟨nofun, fun _ => rfl⟩
      · rw [hpc]; exact nofun
      · rw [hpc]; exact .inl rfl
    exact ⟨hd.pend, hd.ready, hd.dirty, hd.asks, hd.nodup, hd.queued, hd.waits, hd.first, hd.value, hd.clean⟩
  | drop hpc => exact data_drop h hpc
  | write hpc hh hkey hvalid _ hd hlast hdata hpend hsafe =>
    exact data_write h hpc hh hkey hvalid hd hlast hdata hpend hsafe
  | append hpc hdisk => exact data_append h hpc hdisk

theorem effect_inv (he : Effect p s s') : Inv s' :=
  ⟨locks_effect h.locks he, keys_effect h he, holds_effect h he, data_effect h he⟩

end

end Keep

/-! ## The interrupt handler -/

section Intr

variable {s s' : St P α}

/-- The handler does not change who holds `bcache.lock`, and its own place says whether it holds
    `idelock`. -/
theorem locks_intr {f : Handler} {m : Option (Option P)} (h : LocksOk s)
    (hin : f.ideLocked = true → m = some none ∧ (s.idelock = none ∨ s.handler.ideLocked = true))
    (hout : f.ideLocked = false → m = if s.handler.ideLocked = true then none else s.idelock)
    (hpc : s'.pc = s.pc) (hl : s'.lock = s.lock) (hf : s'.handler = f) (hm : s'.idelock = m) : LocksOk s' := by
  constructor
  · rw [hpc, hl]
    exact h.lock
  · rw [hm]
    have hnone : ideView s' none = f.ideLocked := by
      show s'.handler.ideLocked = _
      rw [hf]
    refine owner_step h.ide (p := none) (fun q hq => ?_) (fun hi => ?_) fun ho => ?_
    · cases q with
      | none => exact absurd rfl hq
      | some q =>
        show (s'.pc q).ideLocked = (s.pc q).ideLocked
        rw [hpc]
    · exact hin (hnone.symm.trans hi)
    · exact hout (hnone.symm.trans ho)

/-- What `ideintr` leaves on the drives: it starts the request of the next buffer. -/
def Started (s : St P α) (q : List B) (disk : Key → α) : Prop :=
  (disk = s.disk ∧ ∀ c, q.head? = some c → (s.buf c).dirty = false) ∨
    ∃ c, q.head? = some c ∧ (s.buf c).dirty = true ∧ disk = update s.disk (drive (s.buf c).key) (s.buf c).data

theorem data_serve {b : B} {q : List B} {disk : Key → α} {f : Handler} (h : Inv s)
    (hq : s.idequeue = b :: q) (hdisk : Started s q disk) :
    DataOk { s.setBuf b (served s b) with idequeue := q, handler := f, disk := disk } := by
  have hmem : b ∈ s.idequeue := by rw [hq]; exact mem_cons_self
  obtain ⟨p, hp, hw⟩ := h.data.queued_held h.holds hmem
  have hns := (h.data.queued b hmem).2
  have hu := h.holds.use p b hp
  have hnd : b ∉ q ∧ q.Nodup := by
    have := h.data.nodup
    rw [hq] at this
    exact nodup_cons.mp this
  have hnp : s.pending b = false := by
    cases hpend : s.pending b with
    | false => rfl
    | true =>
      obtain ⟨r, hr, hc⟩ := h.data.pend b hpend
      rw [h.holds.once r p b hr hp] at hc
      exact absurd (waits_cur hw) hc
  -- the drive has the data last stored, or the buffer had to be written and has been
  have hvalue : (served s b).data = s.last (s.buf b).key ∧ s.disk (s.buf b).key = s.last (s.buf b).key := by
    show (if (s.buf b).dirty = true then (s.buf b).data else s.disk (drive (s.buf b).key)) = _ ∧ _
    rw [drive_inUse hu]
    cases hdirty : (s.buf b).dirty with
    | true =>
      have hval := (h.data.value b (h.data.dirty b hdirty)).2
      have hfirst := h.data.first b (by rw [hq]; rfl) hdirty
      rw [drive_inUse hu] at hfirst
      exact ⟨hval, hfirst.trans hval⟩
    | false =>
      rcases h.data.clean _ hu with heq | ⟨c, hc, hdp⟩
      · exact ⟨heq, heq⟩
      · rw [h.keys.uniq b c hu hc.symm] at hdirty hnp
        rcases hdp with hd | hd
        · cases hd.symm.trans hdirty
        · cases hd.symm.trans hnp
  let t := s.setBuf b (served s b)
  have hbuf : ∀ c, c ≠ b → t.buf c = s.buf c := fun c hc => setBuf_ne hc
  have hbufb : t.buf b = served s b := setBuf_self
  have hclean : ∀ k, inUse k.1 → disk k = s.disk k ∨ disk k = s.last k := by
    intro k hk
    rcases hdisk with ⟨rfl, -⟩ | ⟨c, -, hdirty, rfl⟩
    · exact .inl rfl
    · obtain ⟨hu', hval⟩ := h.data.value c (h.data.dirty c hdirty)
      rw [drive_inUse hu']
      by_cases hkc : k = (s.buf c).key
      · rw [hkc, update_self]
        exact .inr hval
      · exact .inl (update_of_ne hkc _ _)
  refine ⟨h.data.pend, ?_, ?_, ?_, hnd.2, ?_, ?_, ?_, ?_, ?_⟩
  · intro r c hr
    by_cases hcb : c = b
    · rw [hcb, hbufb]
      exact .inr rfl
    · rw [hbuf c hcb]
      exact h.data.ready r c hr
  · intro c hc
    have hc' : (t.buf c).dirty = true := hc
    by_cases hcb : c = b
    · rw [hcb, hbufb] at hc'
      cases hc'
    · rw [hbuf c hcb] at hc' ⊢
      exact h.data.dirty c hc'
  · intro r c hr
    have hcb : c ≠ b := by
      rintro rfl
      rw [h.holds.once r p c (h.holds.cur r c (asks_cur hr)) hp] at hr
      exact asks_waits hr hw
    rw [hbuf c hcb]
    exact h.data.asks r c hr
  · intro c hc
    have hcb : c ≠ b := by
      rintro rfl
      exact hnd.1 hc
    obtain ⟨hex, hns'⟩ := h.data.queued c (by rw [hq]; exact mem_cons_of_mem b hc)
    refine ⟨hex, ?_⟩
    rw [hbuf c hcb]
    exact hns'
  · intro r c hr
    by_cases hcb : c = b
    · rw [hcb, hbufb]
      exact .inr ⟨rfl, rfl⟩
    · rw [hbuf c hcb]
      rcases h.data.waits r c hr with hc | hc
      · rw [hq] at hc
        exact .inl ((mem_cons.mp hc).resolve_left hcb)
      · exact .inr hc
  · intro c hc hdirty
    have hcb : c ≠ b := by
      rintro rfl
      exact hnd.1 (mem_of_mem_head? hc)
    have hdirty' : (t.buf c).dirty = true := hdirty
    show disk (drive (t.buf c).key) = (t.buf c).data
    rw [hbuf c hcb] at hdirty' ⊢
    rcases hdisk with ⟨-, hclean'⟩ | ⟨c', hc', -, rfl⟩
    · cases hdirty'.symm.trans (hclean' c hc)
    · rw [some.inj (hc'.symm.trans hc), update_self]
  · intro c hc
    have hc' : (t.buf c).valid = true := hc
    by_cases hcb : c = b
    · rw [hcb, hbufb]
      exact ⟨hu, hvalue.1⟩
    · rw [hbuf c hcb] at hc' ⊢
      exact h.data.value c hc'
  · intro k hk
    show disk k = s.last k ∨ ∃ c, (t.buf c).key = k ∧ ((t.buf c).dirty = true ∨ s.pending c = true)
    rcases hclean k hk with heq | heq
    · rcases h.data.clean k hk with hc | ⟨c, hc, hdp⟩
      · exact .inl (heq.trans hc)
      · by_cases hcb : c = b
        · left
          rw [heq, ← hc, hcb]
          exact hvalue.2
        · exact .inr ⟨c, by rw [hbuf c hcb]; exact hc, by rw [hbuf c hcb]; exact hdp⟩
    · exact .inl heq

theorem idestart_some {c : B} {disk : Key → α} (h : idestart s c = some disk) :
    (disk = s.disk ∧ (s.buf c).dirty = false) ∨ ((s.buf c).dirty = true ∧
      disk = update s.disk (drive (s.buf c).key) (s.buf c).data) := by
  unfold idestart at h
  split at h
  · cases h
  · split at h
    · rename_i hd
      exact .inr ⟨hd, (some.inj h).symm⟩
    · rename_i hd
      exact .inl ⟨(some.inj h).symm, Bool.eq_false_iff.mpr hd⟩

/-- What `ideintr` can do. -/
theorem intr_some (h : Inv s) (hs : intr s = some s') :
    (s.idelock = none ∧ s.handler = .idle ∧ s' = { s with idelock := some none, handler := .serve }) ∨
    (s.handler = .serve ∧ s' = { s with handler := .rel }) ∨
    (s.handler = .rel ∧ s' = { s with idelock := none, handler := .idle }) ∨
    ∃ b q disk, s.handler = .serve ∧ s.idequeue = b :: q ∧ Started s q disk ∧
      s' = { s.setBuf b (served s b) with idequeue := q, handler := .rel, disk := disk } := by
  unfold intr at hs
  split at hs
  · rename_i hf
    split_ifs at hs with hl
    cases hs
    exact .inl ⟨hl, hf, rfl⟩
  · rename_i hf
    split at hs
    · cases hs
      exact .inr (.inl ⟨hf, rfl⟩)
    · rename_i b q hq
      refine .inr (.inr (.inr ⟨b, q, ?_⟩))
      have hbq : ∀ c ∈ q, c ≠ b := by
        rintro c hc rfl
        have hnd := h.data.nodup
        rw [hq] at hnd
        exact (nodup_cons.mp hnd).1 hc
      split at hs
      · cases hs
        exact ⟨s.disk, hf, hq, .inl ⟨rfl, nofun⟩, rfl⟩
      · rename_i c q'
        obtain ⟨disk, hd, rfl⟩ := map_eq_some_iff.mp hs
        refine ⟨disk, hf, hq, ?_, rfl⟩
        have hbuf : (s.setBuf b (served s b)).buf c = s.buf c := setBuf_ne (hbq c mem_cons_self)
        rcases idestart_some hd with ⟨hdisk, hdirty⟩ | ⟨hdirty, hdisk⟩
        · refine .inl ⟨hdisk, fun c' hc' => ?_⟩
          cases hc'
          exact (congrArg Buf.dirty hbuf).symm.trans hdirty
        · refine .inr ⟨c, rfl, (congrArg Buf.dirty hbuf).symm.trans hdirty, ?_⟩
          rw [hdisk]
          show update s.disk (drive ((s.setBuf b (served s b)).buf c).key)
            ((s.setBuf b (served s b)).buf c).data = _
          rw [hbuf]
  · rename_i hf
    cases hs
    exact .inr (.inr (.inl ⟨hf, rfl⟩))

theorem intr_inv (h : Inv s) (hs : intr s = some s') : Inv s' := by
  have hk := h.keys
  have hh := h.holds
  have hd := h.data
  have hlock : ∀ {m f}, LocksOk { s with idelock := m, handler := f } → Inv { s with idelock := m, handler := f } :=
    fun hl => ⟨hl, ⟨hk.ring, hk.uniq, hk.scan, hk.free, hk.want, hk.got⟩, ⟨hh.busy, hh.once, hh.cur, hh.use⟩,
      ⟨hd.pend, hd.ready, hd.dirty, hd.asks, hd.nodup, hd.queued, hd.waits, hd.first, hd.value, hd.clean⟩⟩
  rcases intr_some h hs with ⟨hl, hf, rfl⟩ | ⟨hf, rfl⟩ | ⟨hf, rfl⟩ | ⟨b, q, disk, hf, hq, hst, rfl⟩
  · exact hlock (locks_intr (f := .serve) (m := some none) h.locks (fun _ => ⟨rfl, .inl hl⟩) nofun rfl rfl rfl rfl)
  · have hown : s.idelock = some none := (h.locks.ide none).mp (by rw [ideView, hf]; rfl)
    exact hlock (locks_intr (f := .rel) (m := s.idelock) h.locks (fun _ => ⟨hown, .inr (by rw [hf]; rfl)⟩) nofun
      rfl rfl rfl rfl)
  · exact hlock (locks_intr (f := .idle) (m := none) h.locks nofun (fun _ => by rw [hf]; rfl) rfl rfl rfl rfl)
  · have hkey : ∀ c, ((s.setBuf b (served s b)).buf c).key = (s.buf c).key := key_setBuf rfl
    have hbusy : ∀ c, ((s.setBuf b (served s b)).buf c).busy = (s.buf c).busy := busy_setBuf rfl
    refine ⟨?_, ?_, ?_, data_serve h hq hst⟩
    · have hown : s.idelock = some none := (h.locks.ide none).mp (by rw [ideView, hf]; rfl)
      exact locks_intr (f := .rel) (m := s.idelock) h.locks (fun _ => ⟨hown, .inr (by rw [hf]; rfl)⟩)
        nofun rfl rfl rfl rfl
    · refine ⟨hk.ring, ?_, ?_, ?_, hk.want, ?_⟩
      · intro c c' hu heq
        exact hk.uniq c c' ((hkey c) ▸ hu) ((hkey c).symm.trans (heq.trans (hkey c')))
      · intro p k x hp
        obtain ⟨pre, post, hr, hall, hx, hpre⟩ := hk.scan p k x hp
        exact ⟨pre, post, hr, hall, hx, fun c hc heq => hpre c hc ((hkey c).symm.trans heq)⟩
      · intro p k x hp c heq
        exact hk.free p k x hp c ((hkey c).symm.trans heq)
      · intro p k c hp hc
        exact (hkey c).trans (hk.got p k c hp hc)
    · refine ⟨?_, hh.once, hh.cur, ?_⟩
      · intro p c hp
        exact (hbusy c).trans (hh.busy p c hp)
      · intro p c hp
        exact ((hkey c) ▸ hh.use p c hp : inUse ((s.setBuf b (served s b)).buf c).key.1)

end Intr

/-! ## Runs -/

theorem inv_init (disk : Key → α) (data : B → α) (havedisk1 : Bool) : Inv (init P disk data havedisk1) := by
  refine ⟨⟨?_, ?_⟩, ⟨?_, ?_, nofun, nofun, nofun, nofun⟩, ⟨nofun, nofun, nofun, nofun⟩,
    ⟨nofun, nofun, nofun, nofun, nodup_nil, nofun, nofun, nofun, nofun, ?_⟩⟩
  · intro q
    constructor
    · exact nofun
    · exact nofun
  · intro q
    cases q <;> exact ⟨nofun, nofun⟩
  · have hr := ring_pushes (l := finRange NBUF) ring_nil (nodup_finRange NBUF) nofun
    exact ⟨_, hr, fun b => mem_reverse.mpr (mem_finRange b)⟩
  · intro b b' hu
    have hu' : inUse (-1 : UInt32) := hu
    exact absurd hu' (by decide)
  · intro k hk
    left
    show disk k = disk (drive k)
    rw [drive_inUse hk]

theorem reach_inv {s : St P α} (h : Reach s) : Inv s := by
  obtain ⟨disk, data, havedisk1, hrun⟩ := h
  refine run_inv (inv_init disk data havedisk1) ?_ hrun
  rintro s1 s2 h1 (hs | ⟨p, a, hs⟩)
  · exact intr_inv h1 hs
  · exact effect_inv h1 (step_effect h1 hs)

/-- Only `bget` changes the block of a buffer, and only of one that is neither busy nor dirty. -/
theorem effect_recycles {s s' : St P α} {p : P} (he : Effect p s s') {b : B}
    (hk : (s'.buf b).key ≠ (s.buf b).key) : (s.buf b).busy = false ∧ (s.buf b).dirty = false := by
  cases he with
  | move _ | relink _ | append _ _ => exact absurd rfl hk
  | @take k c _ _ _ => exact absurd (key_setBuf (x := { s.buf c with busy := true }) rfl b) hk
  | @recycle k c x hpc hb hd =>
    by_cases hbc : b = c
    · rw [hbc]
      exact ⟨hb, hd⟩
    · exact absurd (congrArg Buf.key (setBuf_ne hbc)) hk
  | @drop c _ => exact absurd (key_setBuf (x := { s.buf c with busy := false }) rfl b) hk
  | write _ _ hkey _ _ _ _ _ _ _ => exact absurd (key_setBuf hkey b) hk

theorem intr_keeps {s s' : St P α} (h : Inv s) (hs : intr s = some s') (b : B) : (s'.buf b).key = (s.buf b).key := by
  rcases intr_some h hs with ⟨-, -, rfl⟩ | ⟨-, rfl⟩ | ⟨-, rfl⟩ | ⟨c, q, disk, -, -, -, rfl⟩
  · rfl
  · rfl
  · rfl
  · exact key_setBuf (x := served s c) rfl b

/-- What the buffer cache promises. -/
structure Coherent (s : St P α) : Prop where
  /-- at most one buffer is for a block of a device in use -/
  one : ∀ b b', inUse (s.buf b).dev → (s.buf b).key = (s.buf b').key → b = b'
  /-- at most one process has a buffer, and then the buffer is busy -/
  holder : ∀ p q b, s.held p b = true → s.held q b = true → p = q ∧ (s.buf b).busy = true
  /-- a busy or dirty buffer is not recycled -/
  recycled : ∀ s', Step s s' → ∀ b, (s'.buf b).key ≠ (s.buf b).key → (s.buf b).busy = false ∧ (s.buf b).dirty = false
  /-- the lists of `next` and of `prev` have all buffers, in opposite orders -/
  ring : ∃ order, Ring s.next s.prev order ∧ ∀ b, b ∈ order
  /-- a `bread` returns a buffer for its block with the data last stored there -/
  data : ∀ p k b, s.pc p = .rRet k b → s.held p b = true ∧ (s.buf b).key = k ∧ (s.buf b).data = s.last k

/-- **The buffer cache is coherent in every state of every interleaving.** -/
theorem bcache_coherent {s : St P α} (hr : Reach s) : Coherent s := by
  have h := reach_inv hr
  refine ⟨h.keys.uniq, ?_, ?_, h.keys.ring, ?_⟩
  · intro p q b hp hq
    exact ⟨h.holds.once p q b hp hq, h.holds.busy p b hp⟩
  · rintro s' (hs | ⟨p, a, hs⟩) b hk
    · exact absurd (intr_keeps h hs b) hk
    · exact effect_recycles (step_effect h hs) hk
  · intro p k b hp
    have hh := h.holds.cur p b (by rw [hp]; rfl)
    have hkey := h.keys.got p k b (by rw [hp]; rfl) (by rw [hp]; rfl)
    have hv : (s.buf b).valid = true := by
      rcases h.data.ready p b hh with hl | hv
      · rw [hp] at hl
        cases hl
      · exact hv
    refine ⟨hh, hkey, ?_⟩
    rw [(h.data.value b hv).2, hkey]

/-- Run a list of steps; `none` is a step of the interrupt handler. -/
def runActs : List (Option (P × Act α)) → St P α → Option (St P α)
  | [], s => some s
  | none :: l, s => (intr s).bind (runActs l)
  | some x :: l, s => (step x.1 x.2 s).bind (runActs l)

theorem runActs_trans {l : List (Option (P × Act α))} {s s' : St P α} :
    runActs l s = some s' → Relation.ReflTransGen Step s s' :=
  Interleave.run_of_steps (f := fun x s => x.elim (intr s) fun y => step y.1 y.2 s) (fun _ => rfl)
    (fun x _ _ => by cases x <;> rfl) fun
    | none, _, _, h => .inl h
    | some x, _, _, h => .inr ⟨x.1, x.2, h⟩

/-- Block 7 of device 1 is read, stored into and logged, and read again by another process. -/
theorem bcache_coherent_reread :
    ∃ (s : St (Fin 2) Nat) (b : B), Coherent s ∧ s.pc 1 = .rRet (1, 7) b ∧ (s.buf b).data = 42 := by
  let b : B := ⟨0, by decide⟩
  let go : Fin 2 → Option (Fin 2 × Act Nat) := fun p => some (p, .go)
  let l : List (Option (Fin 2 × Act Nat)) :=
    some (0, .bread (1, 7)) :: replicate 39 (go 0) ++ replicate 3 none ++
      replicate 4 (go 0) ++ [some (0, .store b 42), some (0, .logWrite b), some (0, .brelse b)] ++
      replicate 4 (go 0) ++ some (1, .bread (1, 7)) :: replicate 4 (go 1)
  have hdata : (runActs l (init (Fin 2) (fun _ => 0) (fun _ => 0) true)).map
      (fun s => (s.pc 1, (s.buf b).data)) = some (.rRet (1, 7) b, 42) := by
    decide +kernel
  obtain ⟨s, hs, heq⟩ := map_eq_some_iff.mp hdata
  obtain ⟨hpc, hd⟩ : s.pc 1 = .rRet (1, 7) b ∧ (s.buf b).data = 42 := by
    simpa only [Prod.mk.injEq] using heq
  exact ⟨s, b, bcache_coherent ⟨_, _, _, runActs_trans hs⟩, hpc, hd⟩

end Xv6Bcache
