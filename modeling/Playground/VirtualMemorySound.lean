import Mathlib.Algebra.Group.Nat.Defs
import Playground.VirtualMemory

/-!
# Address translation and stale entries

`Inv` holds of every state: the valid entries of the buffer are of different
mapped pages. Whether the buffer agrees with the page table (`Coherent`) is
another matter: `mapPage` leaves the entry of a page it maps anew in place, so
translation is the page table all along a run exactly when no page is mapped
anew, to another frame, while it has an entry.
-/

namespace Playground.VirtualMemory

/-! ## Physical addresses -/

theorem shiftLeft_toNat (f : UInt32) : (f <<< offsetBits).toNat = 2 ^ 12 * (f.toNat % 2 ^ 20) := by
  rw [UInt32.toNat_shiftLeft]
  show f.toNat <<< 12 % 2 ^ 32 = _
  rw [Nat.shiftLeft_eq, Nat.mul_comm]
  exact Nat.mul_mod_mul_left (2 ^ 12) f.toNat (2 ^ 20)

theorem physOf_toNat (f va : UInt32) : (physOf f va).toNat = 2 ^ 12 * (f.toNat % 2 ^ 20) + va.toNat % 2 ^ 12 := by
  rw [physOf, UInt32.toNat_or, UInt32.toNat_and, shiftLeft_toNat]
  show 2 ^ 12 * (f.toNat % 2 ^ 20) ||| va.toNat &&& (2 ^ 12 - 1) = _
  rw [Nat.and_two_pow_sub_one_eq_mod, Nat.two_pow_add_eq_or_of_lt (Nat.mod_lt _ (by decide))]

theorem physOf_inj {f g va : UInt32} : physOf f va = physOf g va ↔ f <<< offsetBits = g <<< offsetBits := by
  rw [← UInt32.toNat_inj, ← UInt32.toNat_inj, physOf_toNat, physOf_toNat, shiftLeft_toNat, shiftLeft_toNat]
  omega

/-! ## What holds of every state -/

structure Inv (s : State) : Prop where
  next : s.tlbNext < tlbSize
  distinct : ∀ i j (hi : i < tlbSize) (hj : j < tlbSize), s.tlb[i].valid → s.tlb[j].valid →
    s.tlb[i].vpn = s.tlb[j].vpn → i = j
  present : ∀ e ∈ s.tlb, e.valid → s.pageTable e.vpn ≠ none
  page : ∀ e ∈ s.tlb, e.valid → ∃ va, e.vpn = vpnOf va

/-- The valid entries give the addresses that the page table gives. -/
def Coherent (s : State) : Prop :=
  ∀ e ∈ s.tlb, e.valid → ∀ f, s.pageTable e.vpn = some f → e.pfn <<< offsetBits = f <<< offsetBits

theorem not_valid_init {e : TLBEntry} (h : e ∈ ({} : State).tlb) : e.valid = false := by
  rw [Vector.eq_of_mem_replicate h]

theorem inv_init : Inv {} where
  next := by decide
  distinct := by
    intro i j hi hj hv
    rw [not_valid_init (Vector.getElem_mem hi)] at hv
    cases hv
  present := by
    intro e he hv
    rw [not_valid_init he] at hv
    cases hv
  page := by
    intro e he hv
    rw [not_valid_init he] at hv
    cases hv

theorem coherent_init : Coherent {} := by
  intro e he hv
  rw [not_valid_init he] at hv
  cases hv

/-! ## One step -/

inductive Lookup (s : State) (va : UInt32) : State → TranslationResult → Prop
  | hit {e} (he : e ∈ s.tlb) (hv : e.valid) (hp : e.vpn = vpnOf va) :
      Lookup s va { s with tlbHits := s.tlbHits + 1 } ⟨true, physOf e.pfn va, "TLB Hit"⟩
  | fault (hmiss : ∀ e ∈ s.tlb, e.valid → e.vpn ≠ vpnOf va) (hp : s.pageTable (vpnOf va) = none) :
      Lookup s va { s with tlbMisses := s.tlbMisses + 1, pageFaults := s.pageFaults + 1 } ⟨false, 0, "Page Fault"⟩
  | refill {pfn} (hmiss : ∀ e ∈ s.tlb, e.valid → e.vpn ≠ vpnOf va) (hp : s.pageTable (vpnOf va) = some pfn)
      (hn : s.tlbNext < tlbSize) :
      Lookup s va { s with
        tlbMisses := s.tlbMisses + 1
        tlb := s.tlb.set s.tlbNext ⟨vpnOf va, pfn, true⟩ hn
        tlbNext := (s.tlbNext + 1) % tlbSize } ⟨true, physOf pfn va, "Page Table"⟩

theorem lookup_of_translate {s : State} (h : Inv s) (va : UInt32) :
    ∃ s' r, translate s va = some (s', r) ∧ Lookup s va s' r := by
  unfold translate
  cases hf : s.tlb.find? fun entry => entry.valid && entry.vpn == vpnOf va with
  | some e =>
    have hp := Vector.find?_some hf
    simp only [Bool.and_eq_true, beq_iff_eq] at hp
    simp only [hf]
    exact ⟨_, _, rfl, .hit (Vector.mem_of_find?_eq_some hf) hp.1 hp.2⟩
  | none =>
    have hmiss : ∀ e ∈ s.tlb, e.valid → e.vpn ≠ vpnOf va := by
      intro e he hv hp
      exact Vector.find?_eq_none.mp hf e he (by simp [hv, hp])
    simp only [hf]
    cases hp : s.pageTable (vpnOf va) with
    | none => exact ⟨_, _, rfl, .fault hmiss hp⟩
    | some pfn =>
      simp only [dif_pos h.next]
      exact ⟨_, _, rfl, .refill hmiss hp h.next⟩

theorem lookup_of_some {s s' : State} (h : Inv s) {va : UInt32} {r : TranslationResult}
    (ht : translate s va = some (s', r)) : Lookup s va s' r := by
  obtain ⟨s₁, r₁, ht₁, hl⟩ := lookup_of_translate h va
  obtain ⟨rfl, rfl⟩ := Prod.mk.inj (Option.some.inj (ht₁.symm.trans ht))
  exact hl

/-- A page has one valid entry at most, so that entry answers. -/
theorem Lookup.of_entry {s s' : State} {va : UInt32} {r : TranslationResult} (hl : Lookup s va s' r) (h : Inv s)
    {e : TLBEntry} (he : e ∈ s.tlb) (hv : e.valid) (hp : e.vpn = vpnOf va) :
    r = ⟨true, physOf e.pfn va, "TLB Hit"⟩ := by
  cases hl with
  | @hit e' he' hv' hp' =>
    obtain ⟨i, hi, rfl⟩ := Vector.mem_iff_getElem.mp he
    obtain ⟨j, hj, rfl⟩ := Vector.mem_iff_getElem.mp he'
    obtain rfl := h.distinct i j hi hj hv hv' (hp.trans hp'.symm)
    rfl
  | fault hmiss _ => exact absurd hp (hmiss e he hv)
  | refill hmiss _ _ => exact absurd hp (hmiss e he hv)

theorem mem_set_tlb {tlb : Vector TLBEntry tlbSize} {n : Nat} (hn : n < tlbSize) {e x : TLBEntry}
    (h : x ∈ tlb.set n e hn) : x ∈ tlb ∨ x = e := by
  obtain ⟨i, hi, rfl⟩ := Vector.mem_iff_getElem.mp h
  rw [Vector.getElem_set]
  split
  · exact Or.inr rfl
  · exact Or.inl (Vector.getElem_mem hi)

theorem inv_lookup {s s' : State} {va : UInt32} {r : TranslationResult} (h : Inv s) (hl : Lookup s va s' r) :
    Inv s' := by
  cases hl with
  | hit _ _ _ => exact ⟨h.next, h.distinct, h.present, h.page⟩
  | fault _ _ => exact ⟨h.next, h.distinct, h.present, h.page⟩
  | @refill pfn hmiss hp hn =>
    refine ⟨Nat.mod_lt _ (by decide), ?_, ?_, ?_⟩
    · intro i j hi hj
      simp only [Vector.getElem_set]
      split <;> split
      · rename_i h₁ h₂
        intros
        exact h₁.symm.trans h₂
      · intro _ hv he
        exact absurd he.symm (hmiss _ (Vector.getElem_mem hj) hv)
      · intro hv _ he
        exact absurd he (hmiss _ (Vector.getElem_mem hi) hv)
      · exact h.distinct i j hi hj
    · intro e he hv
      rcases mem_set_tlb hn he with he | rfl
      · exact h.present e he hv
      · exact fun hn => by rw [hp] at hn; cases hn
    · intro e he hv
      rcases mem_set_tlb hn he with he | rfl
      · exact h.page e he hv
      · exact ⟨va, rfl⟩

theorem coherent_lookup {s s' : State} {va : UInt32} {r : TranslationResult} (h : Coherent s)
    (hl : Lookup s va s' r) :
    Coherent s' := by
  cases hl with
  | hit _ _ _ => exact h
  | fault _ _ => exact h
  | refill hmiss hp hn =>
    intro e he hv f hf
    rcases mem_set_tlb hn he with he | rfl
    · exact h e he hv f hf
    · rw [Option.some.inj (hp.symm.trans hf)]

theorem Lookup.pageTable_eq {s s' : State} {va : UInt32} {r : TranslationResult} (hl : Lookup s va s' r) :
    s'.pageTable = s.pageTable := by
  cases hl <;> rfl

theorem inv_mapPage {s : State} (h : Inv s) (p f : UInt32) : Inv (mapPage s p f) where
  next := h.next
  distinct := h.distinct
  present := by
    intro e he hv
    by_cases hp : e.vpn = p
    · simp [mapPage, hp]
    · simpa [mapPage, Function.update_of_ne hp] using h.present e he hv
  page := h.page

theorem not_valid_flush {s : State} {e : TLBEntry} (h : e ∈ (flushTLB s).tlb) : e.valid = false := by
  obtain ⟨e', _, rfl⟩ := Vector.mem_map.mp h
  rfl

theorem inv_flushTLB {s : State} (h : Inv s) : Inv (flushTLB s) where
  next := h.next
  distinct := by
    intro i j hi hj hv
    rw [not_valid_flush (Vector.getElem_mem hi)] at hv
    cases hv
  present := by
    intro e he hv
    rw [not_valid_flush he] at hv
    cases hv
  page := by
    intro e he hv
    rw [not_valid_flush he] at hv
    cases hv

/-- A page is not mapped anew, to another frame, while it has an entry. Only
the bits of a frame that are left after the shift matter. -/
def NotStale (s : State) : Call → Prop
  | .mapPage p f => ∀ e ∈ s.tlb, e.valid → e.vpn = p → e.pfn <<< offsetBits = f <<< offsetBits
  | _ => True

theorem coherent_mapPage {s : State} (h : Coherent s) (p f : UInt32) :
    Coherent (mapPage s p f) ↔ NotStale s (.mapPage p f) := by
  constructor
  · rintro hc e he hv rfl
    exact hc e he hv f (Function.update_self ..)
  · intro hn e he hv g hg
    change Function.update s.pageTable p (some f) e.vpn = some g at hg
    by_cases hp : e.vpn = p
    · rw [hp, Function.update_self] at hg
      rw [← Option.some.inj hg]
      exact hn e he hv hp
    · rw [Function.update_of_ne hp] at hg
      exact h e he hv g hg

theorem inv_step (s : State) (c : Call) (h : Inv s) : ∃ s' o, virtualMemory.step s c = some (s', o) ∧ Inv s' := by
  cases c with
  | mapPage p f => exact ⟨_, _, rfl, inv_mapPage h p f⟩
  | translate va =>
    obtain ⟨s', r, ht, hl⟩ := lookup_of_translate h va
    exact ⟨s', some r, by simp [virtualMemory, ht], inv_lookup h hl⟩
  | flushTLB => exact ⟨_, _, rfl, inv_flushTLB h⟩

theorem coherent_step (s : State) (c : Call) (s' : State) (o : Option TranslationResult) (h : Inv s)
    (hc : Coherent s) (hs : virtualMemory.step s c = some (s', o)) : Coherent s' ↔ NotStale s c := by
  cases c with
  | mapPage p f =>
    obtain ⟨rfl, rfl⟩ := Prod.mk.inj (Option.some.inj hs)
    exact coherent_mapPage hc p f
  | translate va =>
    obtain ⟨t, r, ht, hl⟩ := lookup_of_translate h va
    simp only [virtualMemory, ht, Option.map_some, Option.some.injEq, Prod.mk.injEq] at hs
    obtain ⟨rfl, rfl⟩ := hs
    exact iff_of_true (coherent_lookup hc hl) trivial
  | flushTLB =>
    obtain ⟨rfl, rfl⟩ := Prod.mk.inj (Option.some.inj hs)
    refine iff_of_true (fun e he hv => ?_) trivial
    rw [not_valid_flush he] at hv
    cases hv

/-! ## Translation -/

/-- In state `s`, translation is the page table `table`, for every address. -/
def Translates (table : UInt32 → Option UInt32) (s : State) : Prop :=
  ∀ va, ∃ s' r, translate s va = some (s', r) ∧ (r.success = true ↔ table (vpnOf va) ≠ none) ∧
    ∀ f, table (vpnOf va) = some f → r.physicalAddr = physOf f va

theorem translates_iff_coherent {s : State} (h : Inv s) : Translates s.pageTable s ↔ Coherent s := by
  constructor
  · intro ht e he hv f hf
    obtain ⟨va, hp⟩ := h.page e he hv
    obtain ⟨s', r, htr, _, hr⟩ := ht va
    have hr := hr f (hp ▸ hf)
    rw [(lookup_of_some h htr).of_entry h he hv hp] at hr
    exact physOf_inj.mp hr
  · intro hc va
    obtain ⟨s', r, htr, hl⟩ := lookup_of_translate h va
    refine ⟨s', r, htr, ?_⟩
    cases hl with
    | @hit e he hv hp =>
      refine ⟨iff_of_true rfl (hp ▸ h.present e he hv), fun f hf => ?_⟩
      exact physOf_inj.mpr (hc e he hv f (hp ▸ hf))
    | fault _ hp =>
      exact ⟨iff_of_false Bool.false_ne_true (not_not_intro hp), fun f hf => by rw [hp] at hf; cases hf⟩
    | refill _ hp _ =>
      refine ⟨iff_of_true rfl (by rw [hp]; exact Option.some_ne_none _), fun f hf => ?_⟩
      rw [Option.some.inj (hp.symm.trans hf)]

/-! ## Runs -/

theorem installed_mapPage (cs : List Call) (p f page : UInt32) :
    installed (cs ++ [.mapPage p f]) page = if p = page then some f else installed cs page := by
  by_cases h : p = page <;> simp [installed, h]

theorem installed_translate (cs : List Call) (va : UInt32) : installed (cs ++ [.translate va]) = installed cs := by
  funext page
  simp [installed]

theorem installed_flushTLB (cs : List Call) : installed (cs ++ [.flushTLB]) = installed cs := by
  funext page
  simp [installed]

theorem inv_exec (cs : List Call) : ∃ s, virtualMemory.exec cs = some s ∧ Inv s :=
  virtualMemory.exec_inv (P := fun _ s => Inv s) inv_init (fun _ s c _ h => inv_step s c h) cs

theorem pageTable_exec (cs : List Call) :
    ∀ {s : State}, virtualMemory.exec cs = some s → s.pageTable = installed cs := by
  induction cs using List.reverseRecOn with
  | nil =>
    intro s h
    obtain rfl := Option.some.inj h
    rfl
  | append_singleton cs c ih =>
    intro s' h
    obtain ⟨s, o, he, hs⟩ := virtualMemory.exec_snoc_some h
    have ih := ih he
    cases c with
    | mapPage p f =>
      obtain ⟨rfl, rfl⟩ := Prod.mk.inj (Option.some.inj hs)
      funext page
      rw [installed_mapPage, ← ih]
      by_cases hp : p = page
      · subst hp
        simp [mapPage]
      · simp [mapPage, hp, Function.update_of_ne (Ne.symm hp)]
    | translate va =>
      obtain ⟨s₁, he₁, hi⟩ := inv_exec cs
      obtain rfl := Option.some.inj (he.symm.trans he₁)
      obtain ⟨t, r, ht, hl⟩ := lookup_of_translate hi va
      simp only [virtualMemory, ht, Option.map_some, Option.some.injEq, Prod.mk.injEq] at hs
      obtain ⟨rfl, rfl⟩ := hs
      rw [hl.pageTable_eq, ih, installed_translate]
    | flushTLB =>
      obtain ⟨rfl, rfl⟩ := Prod.mk.inj (Option.some.inj hs)
      rw [installed_flushTLB, ← ih]
      rfl

theorem translates_exec_iff (cs : List Call) :
    (∃ s, virtualMemory.exec cs = some s ∧ Translates (installed cs) s) ↔
      ∃ s, virtualMemory.exec cs = some s ∧ Coherent s := by
  obtain ⟨s, he, hi⟩ := inv_exec cs
  simp only [he, Option.some.injEq, exists_eq_left', ← pageTable_exec cs he]
  exact translates_iff_coherent hi

/-- **Translation is the page table** all along a run if and only if no page
is mapped anew, to another frame, while it has a valid entry. -/
theorem translates_iff_notStale (cs : List Call) :
    (∀ cs', cs' <+: cs → ∃ s, virtualMemory.exec cs' = some s ∧ Translates (installed cs') s) ↔
      virtualMemory.Guarded NotStale cs := by
  simp only [translates_exec_iff]
  apply virtualMemory.guarded_iff inv_init coherent_init inv_step
  intro s c s' o hi _ hc hs
  exact coherent_step s c s' o hi hc hs

def remap : List Call := [.mapPage 0 5, .translate 0x100, .mapPage 0 6]

/-- The old frame answers: 0x5100 instead of 0x6100. -/
theorem remap_stale : ∃ s, virtualMemory.exec remap = some s ∧ installed remap 0 = some 6 ∧
    (translate s 0x100).map Prod.snd = some ⟨true, 0x5100, "TLB Hit"⟩ ∧ ¬ Translates (installed remap) s := by
  refine ⟨_, rfl, rfl, by decide, fun h => ?_⟩
  obtain ⟨s', r, he, _, hphys⟩ := h 0x100
  have hr : r = ⟨true, 0x5100, "TLB Hit"⟩ := (Prod.mk.inj (Option.some.inj he)).2.symm
  have hne := hphys 6 (by decide)
  rw [hr] at hne
  exact absurd hne (by decide)

end Playground.VirtualMemory
