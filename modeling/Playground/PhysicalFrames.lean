import Mathlib.Algebra.Group.Nat.Defs
import Playground.VirtualMemorySound

/-!
# Frames of physical addresses

A 32-bit address has room for 20 bits of a frame number. `mapPage` takes any
32-bit number, and the shift in `translate` drops the bits above the 20th.
-/

namespace Playground.VirtualMemory

/-- Translation in state `s` goes to the frames of `table`, and to different ones for different frames. -/
structure FramesApart (table : UInt32 → Option UInt32) (s : State) : Prop where
  framed : ∀ va s' r, translate s va = some (s', r) → r.success → ∃ f, table (vpnOf va) = some f ∧
    r.physicalAddr.toNat / 4096 = f.toNat ∧ r.physicalAddr.toNat % 4096 = va.toNat % 4096
  apart : ∀ va va' f f', table (vpnOf va) = some f → table (vpnOf va') = some f' → f ≠ f' →
    ∀ s₁ r s₂ r', translate s va = some (s₁, r) → translate s₁ va' = some (s₂, r') →
      r.physicalAddr ≠ r'.physicalAddr

/-- The frames that addresses are translated to have 20 bits. -/
def Narrow (s : State) : Prop := ∀ va f, s.pageTable (vpnOf va) = some f → f.toNat < 2 ^ 20

/-- A page that addresses have is mapped to a frame that addresses have, and
is not mapped anew, to another frame, while it has an entry. -/
def KeepsFrames (s : State) (c : Call) : Prop :=
  NotStale s c ∧ ∀ p f, c = .mapPage p f → p.toNat < 2 ^ 20 → f.toNat < 2 ^ 20

theorem vpnOf_toNat (va : UInt32) : (vpnOf va).toNat = va.toNat / 2 ^ 12 := by
  rw [vpnOf, UInt32.toNat_shiftRight]
  show va.toNat >>> 12 = _
  rw [Nat.shiftRight_eq_div_pow]

theorem exists_vpnOf {p : UInt32} (hp : p.toNat < 2 ^ 20) : ∃ va, vpnOf va = p := by
  refine ⟨p <<< offsetBits, UInt32.toNat_inj.mp ?_⟩
  rw [vpnOf_toNat, shiftLeft_toNat, Nat.mod_eq_of_lt hp]
  omega

theorem frame_of_physOf {f g va : UInt32} :
    ((physOf f va).toNat / 4096 = g.toNat ∧ (physOf f va).toNat % 4096 = va.toNat % 4096) ↔
      f <<< offsetBits = g <<< offsetBits ∧ g.toNat < 2 ^ 20 := by
  rw [← UInt32.toNat_inj, shiftLeft_toNat, shiftLeft_toNat, physOf_toNat]
  omega

section
variable {s s' : State} {va : UInt32} {r : TranslationResult}

theorem Lookup.framed (hl : Lookup s va s' r) (hi : Inv s) (hc : Coherent s) (hn : Narrow s) (hr : r.success) :
    ∃ f, s.pageTable (vpnOf va) = some f ∧ r.physicalAddr.toNat / 4096 = f.toNat ∧
      r.physicalAddr.toNat % 4096 = va.toNat % 4096 := by
  cases hl with
  | fault _ _ => cases hr
  | @hit e he hv hp =>
    obtain ⟨f, hf⟩ := Option.ne_none_iff_exists'.mp (hi.present e he hv)
    exact ⟨f, hp ▸ hf, frame_of_physOf.mpr ⟨hc e he hv f hf, hn va f (hp ▸ hf)⟩⟩
  | @refill f _ hp _ => exact ⟨f, hp, frame_of_physOf.mpr ⟨rfl, hn va f hp⟩⟩

theorem Lookup.success_of_mapped (hl : Lookup s va s' r) {f : UInt32} (hf : s.pageTable (vpnOf va) = some f) :
    r.success := by
  cases hl with
  | fault _ hp => exact absurd (hp.symm.trans hf) (by simp)
  | hit _ _ _ => rfl
  | refill _ _ _ => rfl

theorem FramesApart.mapped (h : FramesApart s.pageTable s) (hi : Inv s) {f : UInt32}
    (hf : s.pageTable (vpnOf va) = some f) (ht : translate s va = some (s', r)) :
    r.physicalAddr.toNat / 4096 = f.toNat ∧ r.physicalAddr.toNat % 4096 = va.toNat % 4096 := by
  obtain ⟨g, hg, hphys⟩ := h.framed va s' r ht ((lookup_of_some hi ht).success_of_mapped hf)
  rw [Option.some.inj (hf.symm.trans hg)]
  exact hphys

theorem framesApart_iff (hi : Inv s) : FramesApart s.pageTable s ↔ Coherent s ∧ Narrow s := by
  constructor
  · intro h
    constructor
    · intro e he hv f hf
      obtain ⟨va, hp⟩ := hi.page e he hv
      obtain ⟨s', r, ht, hl⟩ := lookup_of_translate hi va
      have hphys := h.mapped hi (hp ▸ hf) ht
      rw [hl.of_entry hi he hv hp] at hphys
      exact (frame_of_physOf.mp hphys).1
    · intro va f hf
      obtain ⟨s', r, ht, hl⟩ := lookup_of_translate hi va
      have hphys := h.mapped hi hf ht
      cases hl with
      | hit he hv hp => exact (frame_of_physOf.mp hphys).2
      | fault _ hp => rw [hp] at hf; cases hf
      | refill _ _ _ => exact (frame_of_physOf.mp hphys).2
  · intro ⟨hc, hn⟩
    refine ⟨fun va s' r ht hr => (lookup_of_some hi ht).framed hi hc hn hr, ?_⟩
    intro va va' f f' hf hf' hne s₁ r s₂ r' ht ht' heq
    have hl := lookup_of_some hi ht
    have htable := hl.pageTable_eq
    have hi₁ := inv_lookup hi hl
    have hl' := lookup_of_some hi₁ ht'
    obtain ⟨g, hg, hphys, -⟩ := hl.framed hi hc hn (hl.success_of_mapped hf)
    obtain ⟨g', hg', hphys', -⟩ := hl'.framed hi₁ (coherent_lookup hc hl) (by rwa [Narrow, htable])
      (hl'.success_of_mapped (f := f') (by rw [htable, hf']))
    rw [htable] at hg'
    rw [heq, hphys'] at hphys
    apply hne
    rw [← Option.some.inj (hg.symm.trans hf), ← Option.some.inj (hg'.symm.trans hf'), UInt32.toNat_inj.mp hphys]

end

theorem narrow_mapPage {s : State} (hn : Narrow s) (p f : UInt32) :
    Narrow (mapPage s p f) ↔ (p.toNat < 2 ^ 20 → f.toNat < 2 ^ 20) := by
  constructor
  · intro h hp
    obtain ⟨va, rfl⟩ := exists_vpnOf hp
    exact h va f (Function.update_self ..)
  · intro h va g hg
    change Function.update s.pageTable p (some f) (vpnOf va) = some g at hg
    by_cases hp : vpnOf va = p
    · rw [hp, Function.update_self] at hg
      rw [← Option.some.inj hg]
      apply h
      rw [← hp, vpnOf_toNat]
      have := va.toNat_lt
      omega
    · rw [Function.update_of_ne hp] at hg
      exact hn va g hg

theorem keepsFrames_iff (s : State) (c : Call) (s' : State) (o : Option TranslationResult) (hi : Inv s)
    (h : Coherent s ∧ Narrow s) (hs : virtualMemory.step s c = some (s', o)) :
    (Coherent s' ∧ Narrow s') ↔ KeepsFrames s c := by
  rw [coherent_step s c s' o hi h.1 hs, KeepsFrames]
  apply and_congr_right'
  cases c with
  | mapPage p f =>
    obtain ⟨rfl, rfl⟩ := Prod.mk.inj (Option.some.inj hs)
    rw [narrow_mapPage h.2]
    simp only [Call.mapPage.injEq]
    constructor
    · rintro hf p f ⟨rfl, rfl⟩
      exact hf
    · exact fun hf => hf p f ⟨rfl, rfl⟩
  | translate va =>
    obtain ⟨t, r, ht, hl⟩ := lookup_of_translate hi va
    simp only [virtualMemory, ht, Option.map_some, Option.some.injEq, Prod.mk.injEq] at hs
    obtain ⟨rfl, rfl⟩ := hs
    rw [Narrow, hl.pageTable_eq]
    exact iff_of_true h.2 (by simp)
  | flushTLB =>
    obtain ⟨rfl, rfl⟩ := Prod.mk.inj (Option.some.inj hs)
    exact iff_of_true h.2 (by simp)

theorem framesApart_exec_iff (cs : List Call) :
    (∃ s, virtualMemory.exec cs = some s ∧ FramesApart (installed cs) s) ↔
      ∃ s, virtualMemory.exec cs = some s ∧ Coherent s ∧ Narrow s := by
  obtain ⟨s, he, hi⟩ := inv_exec cs
  simp only [he, Option.some.injEq, exists_eq_left', ← pageTable_exec cs he]
  exact framesApart_iff hi

/-- **Frames are kept apart** all along a run if and only if every frame that
is mapped has 20 bits and no page is mapped anew while it has another entry. -/
theorem framesApart_iff_keepsFrames (cs : List Call) :
    (∀ cs', cs' <+: cs → ∃ s, virtualMemory.exec cs' = some s ∧ FramesApart (installed cs') s) ↔
      virtualMemory.Guarded KeepsFrames cs := by
  simp only [framesApart_exec_iff]
  apply virtualMemory.guarded_iff inv_init ⟨coherent_init, fun va f hf => by cases hf⟩ inv_step
  intro s c s' o hi _ h hs
  exact keepsFrames_iff s c s' o hi h hs

def highFrame : List Call := [.mapPage 0 0x100000, .mapPage 1 0]

/-- Two pages of different frames, and one physical address: 0. -/
theorem highFrame_collides : ∃ s, virtualMemory.exec highFrame = some s ∧ installed highFrame 0 = some 0x100000 ∧
    installed highFrame 1 = some 0 ∧ (translate s 0).map Prod.snd = some ⟨true, 0, "Page Table"⟩ ∧
    ((translate s 0).bind fun p => translate p.1 0x1000).map Prod.snd = some ⟨true, 0, "Page Table"⟩ ∧
    ¬ FramesApart (installed highFrame) s := by
  refine ⟨_, rfl, rfl, rfl, by decide, by decide, fun h => ?_⟩
  obtain ⟨f, hf, hphys, -⟩ := h.framed 0 _ _ rfl rfl
  obtain rfl : (0x100000 : UInt32) = f := Option.some.inj hf
  exact absurd hphys (by decide)

end Playground.VirtualMemory
