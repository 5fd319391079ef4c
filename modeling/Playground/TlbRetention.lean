import Playground.VirtualMemorySound

/-!
# What the buffer keeps, and what the counters count

A page that has just been taken from the page table is in the slot that the
cursor left behind, so three more such pages pass before the cursor is back
at it, and the fourth overwrites it.
-/

namespace Playground.VirtualMemory

/-! ## The counters -/

def translations (cs : List Call) : Nat := cs.countP fun | .translate _ => true | _ => false

/-- The call at position `i` is a translation of a page that is not mapped when it is made. -/
def unmappedAt (cs : List Call) (i : Nat) : Bool :=
  match cs[i]? with
  | some (.translate va) => (installed (cs.take i) (vpnOf va)).isNone
  | _ => false

def unmapped (cs : List Call) : Nat := (List.range cs.length).countP (unmappedAt cs)

/-- Counted in 64 bits. -/
structure Counted (cs : List Call) (s : State) : Prop where
  lookups : ∃ hits misses, s.tlbHits = UInt64.ofNat hits ∧ s.tlbMisses = UInt64.ofNat misses ∧
    hits + misses = translations cs
  faults : s.pageFaults = UInt64.ofNat (unmapped cs)

theorem translations_snoc (cs : List Call) (c : Call) :
    translations (cs ++ [c]) = translations cs + translations [c] := by
  simp [translations]

theorem unmappedAt_append {cs : List Call} {i : Nat} (hi : i < cs.length) (c : Call) :
    unmappedAt (cs ++ [c]) i = unmappedAt cs i := by
  simp only [unmappedAt, List.getElem?_append_left hi, List.take_append_of_le_length (Nat.le_of_lt hi)]

theorem unmapped_snoc (cs : List Call) (c : Call) :
    unmapped (cs ++ [c]) = unmapped cs + if unmappedAt (cs ++ [c]) cs.length then 1 else 0 := by
  simp only [unmapped, List.length_append, List.length_singleton, List.range_succ, List.countP_append,
    List.countP_singleton]
  congr 1
  apply List.countP_congr
  intro i hi
  rw [unmappedAt_append (List.mem_range.mp hi)]

theorem unmappedAt_length (cs : List Call) (va : UInt32) :
    unmappedAt (cs ++ [.translate va]) cs.length = (installed cs (vpnOf va)).isNone := by
  simp [unmappedAt]

theorem unmapped_other {cs : List Call} {c : Call} (hc : ∀ va, c ≠ .translate va) :
    unmapped (cs ++ [c]) = unmapped cs := by
  rw [unmapped_snoc, if_neg, Nat.add_zero]
  cases c with
  | translate va => exact absurd rfl (hc va)
  | mapPage p f => simp [unmappedAt]
  | flushTLB => simp [unmappedAt]

theorem counted_lookup {cs : List Call} {s s' : State} {va : UInt32} {r : TranslationResult} (hi : Inv s)
    (hc : Counted cs s) (ht : s.pageTable = installed cs) (hl : Lookup s va s' r) :
    Counted (cs ++ [.translate va]) s' := by
  obtain ⟨⟨hits, misses, hh, hm, hsum⟩, hf⟩ := hc
  have hone : translations (cs ++ [.translate va]) = translations cs + 1 := translations_snoc cs _
  have hun := unmapped_snoc cs (.translate va)
  rw [unmappedAt_length, ← ht] at hun
  cases hl with
  | hit he hv hp =>
    have hmapped := hi.present _ he hv
    rw [hp] at hmapped
    rw [if_neg (by simpa using hmapped), Nat.add_zero] at hun
    exact ⟨⟨hits + 1, misses, by simp [hh], hm, by omega⟩, by rw [hun]; exact hf⟩
  | fault hmiss hp =>
    rw [hp, if_pos Option.isNone_none] at hun
    exact ⟨⟨hits, misses + 1, hh, by simp [hm], by omega⟩, by simp [hun, hf]⟩
  | refill hmiss hp hn =>
    rw [hp, if_neg (by simp), Nat.add_zero] at hun
    exact ⟨⟨hits, misses + 1, hh, by simp [hm], by omega⟩, by rw [hun]; exact hf⟩

theorem counted_exec (cs : List Call) : ∃ s, virtualMemory.exec cs = some s ∧ Inv s ∧ Counted cs s := by
  apply virtualMemory.exec_inv (P := fun cs s => Inv s ∧ Counted cs s)
  · exact ⟨inv_init, ⟨0, 0, rfl, rfl, rfl⟩, rfl⟩
  · intro cs s c he ⟨hi, hc⟩
    have hother : ∀ {s' : State}, (∀ va, c ≠ .translate va) → s'.tlbHits = s.tlbHits → s'.tlbMisses = s.tlbMisses →
        s'.pageFaults = s.pageFaults → Counted (cs ++ [c]) s' := by
      intro s' hn h₁ h₂ h₃
      have hz : translations [c] = 0 := by
        cases c with
        | translate va => exact absurd rfl (hn va)
        | mapPage p f => rfl
        | flushTLB => rfl
      constructor
      · rw [h₁, h₂, translations_snoc, hz]
        exact hc.lookups
      · rw [h₃, unmapped_other hn]
        exact hc.faults
    cases c with
    | mapPage p f => exact ⟨_, _, rfl, inv_mapPage hi p f, hother (by simp) rfl rfl rfl⟩
    | flushTLB => exact ⟨_, _, rfl, inv_flushTLB hi, hother (by simp) rfl rfl rfl⟩
    | translate va =>
      obtain ⟨s', r, ht, hl⟩ := lookup_of_translate hi va
      exact ⟨s', some r, by simp [virtualMemory, ht], inv_lookup hi hl,
        counted_lookup hi hc (pageTable_exec cs he) hl⟩

/-! ## Retention -/

/-- A translation of another page than `page` that was answered from the page table. -/
def otherRefill (page : UInt32) : Call × Option TranslationResult → Bool
  | (.translate va, some r) => vpnOf va ≠ page && r.source == "Page Table"
  | _ => false

/-- The number of such translations in the calls `cs`, made from state `s` on. -/
def otherRefills (page : UInt32) (s : State) (cs : List Call) : Nat :=
  (virtualMemory.traceFrom s cs).countP (otherRefill page)

def Hits (s : State) (va : UInt32) : Prop := ∃ s' r, translate s va = some (s', r) ∧ r.source = "TLB Hit"

/-- From `s` on, without flushes, `page` is answered by the buffer up to the fourth refill, which evicts it. -/
def Retained (page : UInt32) (s : State) : Prop :=
  ∀ cs t, Call.flushTLB ∉ cs → virtualMemory.execFrom s cs = some t →
    (otherRefills page s cs < 4 → ∀ va, vpnOf va = page → Hits t va) ∧
      ∀ cs' c, cs = cs' ++ [c] → otherRefills page s cs' = 3 → otherRefills page s cs = 4 →
        ∀ va, vpnOf va = page → ¬ Hits t va

theorem hits_iff {s : State} (hi : Inv s) (va : UInt32) : Hits s va ↔ ∃ e ∈ s.tlb, e.valid ∧ e.vpn = vpnOf va := by
  constructor
  · intro ⟨s', r, ht, hr⟩
    cases lookup_of_some hi ht with
    | hit he hv hp => exact ⟨_, he, hv, hp⟩
    | fault _ _ => exact absurd hr (by decide)
    | refill _ _ _ => exact absurd hr (by simp)
  · intro ⟨e, he, hv, hp⟩
    obtain ⟨s', r, ht, hl⟩ := lookup_of_translate hi va
    exact ⟨s', r, ht, by rw [hl.of_entry hi he hv hp]⟩

/-- `page` has an entry, and the cursor reaches it after `3 - k` more refills. -/
def Cached (page : UInt32) (k : Nat) (s : State) : Prop :=
  k < 4 ∧ ∃ i, ∃ hi : i < tlbSize, s.tlb[i].valid ∧ s.tlb[i].vpn = page ∧ i = (s.tlbNext + 3 - k) % tlbSize

def Evicted (page : UInt32) (s : State) : Prop := ∀ e ∈ s.tlb, e.valid → e.vpn ≠ page

theorem Cached.mem {page : UInt32} {k : Nat} {s : State} (h : Cached page k s) :
    ∃ e ∈ s.tlb, e.valid ∧ e.vpn = page := by
  obtain ⟨-, i, hi, hv, hp, -⟩ := h
  exact ⟨_, Vector.getElem_mem hi, hv, hp⟩

theorem Lookup.cached {s s' : State} {va : UInt32} {r : TranslationResult} (hl : Lookup s va s' r)
    (hr : r.source = "Page Table") : Cached (vpnOf va) 0 s' := by
  cases hl with
  | hit _ _ _ => exact absurd hr (by simp)
  | fault _ _ => exact absurd hr (by simp)
  | refill _ _ hn =>
    refine ⟨by decide, s.tlbNext, hn, by simp, by simp, ?_⟩
    simp only [tlbSize] at hn ⊢
    omega

theorem Cached.refill {page pfn : UInt32} {k : Nat} {s s' : State} {va : UInt32} (h : Cached page k s)
    (hk : k + 1 < 4) (hn : s.tlbNext < tlbSize) (htlb : s'.tlb = s.tlb.set s.tlbNext ⟨vpnOf va, pfn, true⟩ hn)
    (hnext : s'.tlbNext = (s.tlbNext + 1) % tlbSize) : Cached page (k + 1) s' := by
  obtain ⟨-, i, hi, hv, hp, hpos⟩ := h
  have hne : s.tlbNext ≠ i := by
    simp only [tlbSize] at hn hpos
    omega
  have hget : s'.tlb[i] = s.tlb[i] := by simp only [htlb, Vector.getElem_set_ne hn hi hne]
  refine ⟨hk, i, hi, hget ▸ hv, hget ▸ hp, ?_⟩
  simp only [tlbSize] at hpos hnext ⊢
  omega

theorem Cached.evicted {page pfn : UInt32} {s s' : State} {va : UInt32} (h : Cached page 3 s) (hI : Inv s)
    (hne : vpnOf va ≠ page) (hn : s.tlbNext < tlbSize)
    (htlb : s'.tlb = s.tlb.set s.tlbNext ⟨vpnOf va, pfn, true⟩ hn) : Evicted page s' := by
  obtain ⟨-, i, hi, hv, hp, hpos⟩ := h
  have hin : i = s.tlbNext := hpos.trans (Nat.mod_eq_of_lt hn)
  intro e he hve hpe
  obtain ⟨j, hj, rfl⟩ := Vector.mem_iff_getElem.mp he
  simp only [htlb, Vector.getElem_set] at hve hpe
  split at hpe
  · exact hne hpe
  · rename_i hnj
    rw [if_neg hnj] at hve
    -- the page had one entry only, and it is the one overwritten
    exact hnj (hin ▸ hI.distinct i j hi hj hv hve (hp.trans hpe.symm))

theorem Cached.step {page : UInt32} {k : Nat} {s s' : State} {c : Call} {o : Option TranslationResult}
    (h : Cached page k s) (hi : Inv s) (hc : c ≠ .flushTLB) (hs : virtualMemory.step s c = some (s', o)) :
    (otherRefill page (c, o) = false ∧ Cached page k s') ∨
      (otherRefill page (c, o) = true ∧ if k = 3 then Evicted page s' else Cached page (k + 1) s') := by
  cases c with
  | flushTLB => exact absurd rfl hc
  | mapPage p f =>
    obtain ⟨rfl, rfl⟩ := Prod.mk.inj (Option.some.inj hs)
    exact .inl ⟨rfl, h⟩
  | translate va =>
    obtain ⟨t, r, ht, hl⟩ := lookup_of_translate hi va
    simp only [virtualMemory, ht, Option.map_some, Option.some.injEq, Prod.mk.injEq] at hs
    obtain ⟨rfl, rfl⟩ := hs
    cases hl with
    | hit _ _ _ => exact .inl ⟨by simp [otherRefill], h⟩
    | fault _ _ => exact .inl ⟨by simp [otherRefill], h⟩
    | refill hmiss _ hn =>
      have hne : vpnOf va ≠ page := by
        obtain ⟨e, he, hv, hp⟩ := h.mem
        exact fun heq => hmiss e he hv (hp.trans heq.symm)
      refine .inr ⟨by simp [otherRefill, hne], ?_⟩
      split
      · rename_i hk
        subst hk
        exact h.evicted hi hne hn rfl
      · have := h.1
        exact h.refill (by omega) hn rfl rfl

theorem otherRefills_snoc (page : UInt32) {s t t' : State} {cs : List Call} {c : Call}
    {o : Option TranslationResult} (he : virtualMemory.execFrom s cs = some t)
    (hs : virtualMemory.step t c = some (t', o)) :
    otherRefills page s (cs ++ [c]) = otherRefills page s cs + if otherRefill page (c, o) then 1 else 0 := by
  rw [otherRefills, virtualMemory.traceFrom_snoc he hs, List.countP_append, List.countP_singleton, otherRefills]

theorem inv_execFrom {s : State} (hi : Inv s) (cs : List Call) {t : State}
    (he : virtualMemory.execFrom s cs = some t) :
    Inv t := by
  induction cs generalizing s with
  | nil => exact Option.some.inj he ▸ hi
  | cons c cs ih =>
    obtain ⟨⟨s', o⟩, hs, he⟩ := Option.bind_eq_some_iff.mp he
    obtain ⟨s₁, o₁, hs₁, hi₁⟩ := inv_step s c hi
    obtain ⟨rfl, rfl⟩ := Prod.mk.inj (Option.some.inj (hs₁.symm.trans hs))
    exact ih hi₁ he

/-- Run lemma: fewer than four refills have not evicted the page, and the fourth does. -/
theorem Cached.execFrom {page : UInt32} {s : State} (h : Cached page 0 s) (hi : Inv s) {cs : List Call} {t : State}
    (hf : Call.flushTLB ∉ cs) (he : virtualMemory.execFrom s cs = some t) :
    (otherRefills page s cs < 4 → Cached page (otherRefills page s cs) t) ∧
      ∀ cs' c, cs = cs' ++ [c] → otherRefills page s cs' = 3 → otherRefills page s cs = 4 → Evicted page t := by
  induction cs using List.reverseRecOn generalizing t with
  | nil =>
    obtain rfl := Option.some.inj he
    exact ⟨fun _ => h, fun cs' c hcs => by simp at hcs⟩
  | append_singleton cs c ih =>
    obtain ⟨t', o, he', hs⟩ := virtualMemory.execFrom_snoc_some he
    simp only [List.mem_append, List.mem_singleton, not_or] at hf
    have hsnoc := otherRefills_snoc page he' hs
    have hstep : otherRefills page s cs < 4 → _ := fun hlt =>
      ((ih hf.1 he').1 hlt).step (inv_execFrom hi cs he') (Ne.symm hf.2) hs
    constructor
    · intro hlt
      rcases hstep (by omega) with ⟨hno, hc⟩ | ⟨hyes, hc⟩
      · rw [hsnoc, hno, if_neg Bool.false_ne_true]
        exact hc
      · rw [hyes, if_pos rfl] at hsnoc
        rw [if_neg (by omega)] at hc
        rw [hsnoc]
        exact hc
    · intro cs' c' heq h₃ h₄
      obtain ⟨rfl, -⟩ := List.append_inj' heq rfl
      rcases hstep (by omega) with ⟨hno, -⟩ | ⟨-, hc⟩
      · rw [hno, if_neg Bool.false_ne_true] at hsnoc
        omega
      · rw [h₃, if_pos rfl] at hc
        exact hc

theorem retained_of_cached {page : UInt32} {s : State} (h : Cached page 0 s) (hi : Inv s) : Retained page s := by
  intro cs t hf he
  obtain ⟨hkept, hgone⟩ := h.execFrom hi hf he
  have hit := inv_execFrom hi cs he
  constructor
  · rintro hlt va rfl
    exact (hits_iff hit va).mpr (hkept hlt).mem
  · rintro cs' c heq h₃ h₄ va rfl hh
    obtain ⟨e, hmem, hv, hp⟩ := (hits_iff hit va).mp hh
    exact hgone cs' c heq h₃ h₄ e hmem hv hp

/-! ## Every run -/

/-- What a translation does to the buffer and the page table, and promises of the next ones. -/
structure Lookups (s : State) (va : UInt32) (s' : State) (r : TranslationResult) : Prop where
  faults : r.success = false ↔ s.pageTable (vpnOf va) = none
  fault : r.success = false → s'.pageTable = s.pageTable ∧ s'.tlb = s.tlb ∧ s'.tlbNext = s.tlbNext
  retained : r.source = "Page Table" → Retained (vpnOf va) s'

theorem Lookup.lookups {s s' : State} {va : UInt32} {r : TranslationResult} (hi : Inv s) (hl : Lookup s va s' r) :
    Lookups s va s' r where
  faults := by
    cases hl with
    | hit he hv hp => exact iff_of_false (by simp) (hp ▸ hi.present _ he hv)
    | fault _ hp => exact iff_of_true rfl hp
    | refill _ hp _ => exact iff_of_false (by simp) (by simp [hp])
  fault := by
    intro hr
    cases hl with
    | hit _ _ _ => cases hr
    | fault _ _ => exact ⟨rfl, rfl, rfl⟩
    | refill _ _ _ => cases hr
  retained := fun hr => retained_of_cached (hl.cached hr) (inv_lookup hi hl)

/-- **The buffer over every run**: its entries, what is counted, and how long an entry stays. -/
theorem tlb_exec (cs : List Call) : ∃ s, virtualMemory.exec cs = some s ∧ Inv s ∧ Counted cs s ∧
    ∀ va, ∃ s' r, translate s va = some (s', r) ∧ Lookups s va s' r := by
  obtain ⟨s, he, hi, hc⟩ := counted_exec cs
  refine ⟨s, he, hi, hc, fun va => ?_⟩
  obtain ⟨s', r, ht, hl⟩ := lookup_of_translate hi va
  exact ⟨s', r, ht, hl.lookups hi⟩

/-- Three other pages pass, and the fourth evicts page 1. -/
example :
    let s := virtualMemory.exec
      [.mapPage 1 9, .mapPage 2 8, .mapPage 3 7, .mapPage 4 6, .mapPage 5 5, .translate 0x1000]
    (s.map fun s => ((virtualMemory.traceFrom s [.translate 0x2000, .translate 0x3000, .translate 0x4000,
      .translate 0x1000, .translate 0x5000, .translate 0x1000]).map fun p => (p.2.map TranslationResult.source))) =
      some [some "Page Table", some "Page Table", some "Page Table", some "TLB Hit", some "Page Table",
        some "Page Table"] := by
  decide

end Playground.VirtualMemory
