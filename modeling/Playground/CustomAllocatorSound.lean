import Mathlib.Algebra.Group.Nat.Defs
import Playground.CustomAllocator

/-!
# Blocks do not overlap, and where exhaustion goes unnoticed

In exact arithmetic a request ends at `a.exactEnd bytes alignment`. As long as
this does not reach `2 ^ 64`, the arena hands out disjoint blocks inside its
buffer and throws when the request does not fit. The check itself is made
modulo `2 ^ 64`, so a request that wraps around into the buffer is granted.
-/

namespace Playground.CustomAllocator

open Align

def ValidAlignment (alignment : UInt64) : Prop := ∃ k, alignment.toNat = 2 ^ k

theorem ValidAlignment.lt {alignment : UInt64} {k : Nat} (h : alignment.toNat = 2 ^ k) : k < 64 := by
  have hlt : 2 ^ k < 2 ^ 64 := h ▸ alignment.toNat_lt
  exact (Nat.pow_lt_pow_iff_right (by decide)).mp hlt

theorem ValidAlignment.pos {alignment : UInt64} (h : ValidAlignment alignment) : 0 < alignment.toNat := by
  obtain ⟨k, hk⟩ := h
  exact hk ▸ Nat.two_pow_pos k

theorem ValidAlignment.dvd {alignment : UInt64} {maxAlign : Nat} (h : ValidAlignment alignment)
    (hmax : ∃ k, maxAlign = 2 ^ k) (hle : alignment.toNat ≤ maxAlign) : alignment.toNat ∣ maxAlign := by
  obtain ⟨i, hi⟩ := h
  obtain ⟨j, rfl⟩ := hmax
  rw [hi] at hle ⊢
  exact Nat.pow_dvd_pow 2 ((Nat.pow_le_pow_iff_right (by decide)).mp hle)

/-! ## One request -/

/-- `round_up(offset_, alignment)`, without wraparound. -/
def Arena.exactStart (a : Arena) (alignment : UInt64) : Nat := roundUp a.offset.toNat alignment.toNat

variable {a : Arena} {bytes alignment : UInt64}

theorem Arena.offset_le_start (ha : ValidAlignment alignment) : a.offset.toNat ≤ a.exactStart alignment :=
  le_roundUp ha.pos

theorem Arena.start_lt (ha : ValidAlignment alignment) :
    a.exactStart alignment < a.offset.toNat + alignment.toNat := roundUp_lt ha.pos

/-- Both the place and the check are computed modulo `2 ^ 64`. -/
theorem Arena.allocate_cases (a : Arena) (bytes : UInt64) (ha : ValidAlignment alignment) :
    a.capacity.toNat < (a.exactStart alignment + bytes.toNat) % 2 ^ 64 ∧ a.allocate bytes alignment = (a, none) ∨
    (a.exactStart alignment + bytes.toNat) % 2 ^ 64 ≤ a.capacity.toNat ∧ ∃ a' start,
      a.allocate bytes alignment = (a', some start) ∧ start.toNat = a.exactStart alignment % 2 ^ 64 ∧
        a'.offset.toNat = (a.exactStart alignment + bytes.toNat) % 2 ^ 64 ∧ a'.capacity = a.capacity := by
  obtain ⟨k, hk⟩ := ha
  have hstart := toNat_roundUp a.offset (ValidAlignment.lt hk) hk
  have hend : (((a.offset + alignment - 1) &&& ~~~(alignment - 1)) + bytes).toNat =
      (a.exactStart alignment + bytes.toNat) % 2 ^ 64 := by
    rw [UInt64.toNat_add, hstart, Nat.mod_add_mod]
    rfl
  unfold Arena.allocate
  by_cases hlt : a.capacity < ((a.offset + alignment - 1) &&& ~~~(alignment - 1)) + bytes
  · exact Or.inl ⟨hend ▸ UInt64.lt_iff_toNat_lt.mp hlt, if_pos hlt⟩
  · refine Or.inr ⟨?_, _, _, if_neg hlt, hstart, hend, rfl⟩
    rw [← hend]
    exact Nat.le_of_not_lt fun h => hlt (UInt64.lt_iff_toNat_lt.mpr h)

theorem Arena.allocate_eq (a : Arena) (bytes alignment : UInt64) :
    a.allocate bytes alignment = (a, none) ∨ ∃ a' start, a.allocate bytes alignment = (a', some start) := by
  unfold Arena.allocate
  by_cases hlt : a.capacity < ((a.offset + alignment - 1) &&& ~~~(alignment - 1)) + bytes
  · exact Or.inl (if_pos hlt)
  · exact Or.inr ⟨_, _, if_neg hlt⟩

theorem step_throws {r : Run} (h : r.arena.allocate bytes alignment = (r.arena, none)) :
    step r (.allocate bytes alignment) = (r, none) := by
  simp only [step, h]

theorem step_grants {r : Run} {a' : Arena} {start : UInt64}
    (h : r.arena.allocate bytes alignment = (a', some start)) :
    step r (.allocate bytes alignment) = (⟨a', ⟨start, bytes, alignment⟩ :: r.live⟩, some start) := by
  simp only [step, h]

/-! ## Requests that stay below `2 ^ 64` -/

/-- The requests the arena is made for, in a state `r`. -/
def Allowed (maxAlign : Nat) (r : Run) : Call → Prop
  | .allocate bytes alignment => ValidAlignment alignment ∧ alignment.toNat ≤ maxAlign ∧
      r.arena.offset.toNat + alignment.toNat - 1 + bytes.toNat < 2 ^ 64
  | .reset => True

def Block.stop (b : Block) : Nat := b.start.toNat + b.bytes.toNat

structure Packed (capacity : UInt64) (maxAlign : Nat) (r : Run) : Prop where
  cap : r.arena.capacity = capacity
  used : r.arena.offset.toNat ≤ capacity.toNat
  inside : ∀ b ∈ r.live, b.stop ≤ r.arena.offset.toNat
  aligned : ∀ b ∈ r.live, ValidAlignment b.alignment ∧ b.alignment.toNat ≤ maxAlign ∧
    b.alignment.toNat ∣ b.start.toNat
  sorted : r.live.Pairwise fun b b' => b'.stop ≤ b.start.toNat

theorem Arena.allocate_exact (a : Arena) (ha : ValidAlignment alignment)
    (hlt : a.offset.toNat + alignment.toNat - 1 + bytes.toNat < 2 ^ 64) :
    a.capacity.toNat < a.exactStart alignment + bytes.toNat ∧ a.allocate bytes alignment = (a, none) ∨
    a.exactStart alignment + bytes.toNat ≤ a.capacity.toNat ∧ ∃ a' start,
      a.allocate bytes alignment = (a', some start) ∧ start.toNat = a.exactStart alignment ∧
        a'.offset.toNat = a.exactStart alignment + bytes.toNat ∧ a'.capacity = a.capacity := by
  have hstart := a.start_lt ha
  have hmod : (a.exactStart alignment + bytes.toNat) % 2 ^ 64 = a.exactStart alignment + bytes.toNat :=
    Nat.mod_eq_of_lt (by omega)
  have hmod' : a.exactStart alignment % 2 ^ 64 = a.exactStart alignment := Nat.mod_eq_of_lt (by omega)
  have hcases := a.allocate_cases bytes ha
  rwa [hmod, hmod'] at hcases

theorem Packed.allocate {capacity : UInt64} {maxAlign : Nat} {r : Run} (h : Packed capacity maxAlign r)
    (hok : Allowed maxAlign r (.allocate bytes alignment)) :
    Packed capacity maxAlign (step r (.allocate bytes alignment)).1 := by
  obtain ⟨ha, hmax, hlt⟩ := hok
  cases r.arena.allocate_exact ha hlt with
  | inl hfail =>
    rw [step_throws hfail.2]
    exact h
  | inr hroom =>
    obtain ⟨hle, a', start, he, hs, ho, hc⟩ := hroom
    have hoff := r.arena.offset_le_start ha
    rw [step_grants he]
    exact {
      cap := hc.trans h.cap
      used := by
        rw [← h.cap, ho]
        exact hle
      inside := by
        intro b hb
        show b.stop ≤ a'.offset.toNat
        cases List.mem_cons.mp hb with
        | inl hb =>
          simp only [hb, ho, Block.stop, hs, Nat.le_refl]
        | inr hb =>
          have := h.inside b hb
          omega
      aligned := by
        intro b hb
        cases List.mem_cons.mp hb with
        | inl hb =>
          rw [hb]
          exact ⟨ha, hmax, hs ▸ dvd_roundUp _ _⟩
        | inr hb => exact h.aligned b hb
      sorted := by
        apply List.pairwise_cons.mpr ⟨fun b hb => ?_, h.sorted⟩
        have := h.inside b hb
        show b.stop ≤ start.toNat
        omega }

/-- What the user of an arena sees: the blocks, and the next request. -/
structure Sound (capacity : UInt64) (maxAlign base : Nat) (r : Run) : Prop where
  used : r.arena.offset.toNat ≤ capacity.toNat
  aligned : ∀ b ∈ r.live, b.alignment.toNat ∣ base + b.start.toNat
  inside : ∀ b ∈ r.live, b.stop ≤ capacity.toNat
  disjoint :
    r.live.Pairwise fun b b' => ∀ i, ¬ ((b.start.toNat ≤ i ∧ i < b.stop) ∧ b'.start.toNat ≤ i ∧ i < b'.stop)
  throws : ∀ bytes alignment, Allowed maxAlign r (.allocate bytes alignment) →
    ((step r (.allocate bytes alignment)).2 = none ↔
      capacity.toNat < r.arena.exactStart alignment + bytes.toNat)
  unchanged : ∀ bytes alignment, (step r (.allocate bytes alignment)).2 = none →
    (step r (.allocate bytes alignment)).1 = r
  returned : ∀ bytes alignment start, (step r (.allocate bytes alignment)).2 = some start →
    (step r (.allocate bytes alignment)).1.live = ⟨start, bytes, alignment⟩ :: r.live
  grows : ∀ bytes alignment, Allowed maxAlign r (.allocate bytes alignment) →
    r.arena.offset.toNat ≤ (step r (.allocate bytes alignment)).1.arena.offset.toNat

theorem step_unchanged {r : Run} (hnone : (step r (.allocate bytes alignment)).2 = none) :
    (step r (.allocate bytes alignment)).1 = r := by
  cases r.arena.allocate_eq bytes alignment with
  | inl he => rw [step_throws he]
  | inr he =>
    obtain ⟨a', start, he⟩ := he
    rw [step_grants he] at hnone
    cases hnone

theorem step_returned {r : Run} {start : UInt64} (hsome : (step r (.allocate bytes alignment)).2 = some start) :
    (step r (.allocate bytes alignment)).1.live = ⟨start, bytes, alignment⟩ :: r.live := by
  cases r.arena.allocate_eq bytes alignment with
  | inl he =>
    rw [step_throws he] at hsome
    cases hsome
  | inr he =>
    obtain ⟨a', start', he⟩ := he
    rw [step_grants he] at hsome ⊢
    rw [Option.some.inj hsome]

theorem step_grows {maxAlign : Nat} {r : Run} (hok : Allowed maxAlign r (.allocate bytes alignment)) :
    r.arena.offset.toNat ≤ (step r (.allocate bytes alignment)).1.arena.offset.toNat := by
  cases r.arena.allocate_exact hok.1 hok.2.2 with
  | inl hfail => simp only [step_throws hfail.2, Nat.le_refl]
  | inr hroom =>
    obtain ⟨_, a', start, he, _, ho, _⟩ := hroom
    have hoff := r.arena.offset_le_start hok.1
    rw [step_grants he]
    show r.arena.offset.toNat ≤ a'.offset.toNat
    omega

theorem Packed.sound {capacity : UInt64} {maxAlign base : Nat} (hmax : ∃ k, maxAlign = 2 ^ k)
    (hbase : maxAlign ∣ base) {r : Run} (h : Packed capacity maxAlign r) : Sound capacity maxAlign base r where
  used := h.used
  aligned := by
    intro b hb
    obtain ⟨ha, hle, hdvd⟩ := h.aligned b hb
    exact Nat.dvd_add (Nat.dvd_trans (ha.dvd hmax hle) hbase) hdvd
  inside := fun b hb => Nat.le_trans (h.inside b hb) h.used
  disjoint := by
    apply h.sorted.imp
    intro b b' hle i hi
    omega
  throws := by
    intro bytes alignment hok
    rw [← h.cap]
    cases r.arena.allocate_exact hok.1 hok.2.2 with
    | inl hfail =>
      rw [step_throws hfail.2]
      exact iff_of_true rfl hfail.1
    | inr hroom =>
      obtain ⟨hle, a', start, he, _⟩ := hroom
      rw [step_grants he]
      exact iff_of_false nofun (Nat.not_lt_of_le hle)
  unchanged := fun _ _ => step_unchanged
  returned := fun _ _ _ => step_returned
  grows := fun _ _ => step_grows

theorem Packed.step {capacity : UInt64} {maxAlign : Nat} {r : Run} (h : Packed capacity maxAlign r) {call : Call}
    (hok : Allowed maxAlign r call) : Packed capacity maxAlign (CustomAllocator.step r call).1 := by
  cases call with
  | allocate bytes alignment => exact h.allocate hok
  | reset => exact ⟨h.cap, Nat.zero_le _, nofun, nofun, List.Pairwise.nil⟩

/-- **Blocks never overlap**, after any requests that stay below `2 ^ 64`. -/
theorem arena_disjoint (capacity : UInt64) (maxAlign base : Nat) (hmax : ∃ k, maxAlign = 2 ^ k)
    (hbase : maxAlign ∣ base) (calls : List Call) (hg : (arena capacity).Guarded (Allowed maxAlign) calls) :
    ∃ r, (arena capacity).exec calls = some r ∧ Sound capacity maxAlign base r := by
  have hinit : Packed capacity maxAlign (arena capacity).init :=
    ⟨rfl, Nat.zero_le _, nofun, nofun, List.Pairwise.nil⟩
  obtain ⟨r, he, hr⟩ := (arena capacity).guarded_inv hinit
    (fun r call hr hok => ⟨_, _, rfl, hr.step hok⟩) calls hg
  exact ⟨r, he, hr.sound hmax hbase⟩

def requests : List Call := [.allocate 3 1, .allocate 8 8, .allocate 100 1, .allocate 48 16]

theorem requests_allowed : (arena 64).Guarded (Allowed 16) requests := by
  refine ⟨⟨⟨0, rfl⟩, by decide, by decide⟩, fun p hp => ?_⟩
  obtain rfl := Option.some.inj hp
  refine ⟨⟨⟨3, rfl⟩, by decide, by decide⟩, fun p hp => ?_⟩
  obtain rfl := Option.some.inj hp
  refine ⟨⟨⟨0, rfl⟩, by decide, by decide⟩, fun p hp => ?_⟩
  obtain rfl := Option.some.inj hp
  exact ⟨⟨⟨4, rfl⟩, by decide, by decide⟩, fun _ _ => trivial⟩

/-- One request fails in the middle, the last one fits exactly. -/
theorem arena_disjoint_requests : ∃ r, (arena 64).exec requests = some r ∧ r.arena = ⟨64, 64, 3⟩ ∧
    Sound 64 16 4096 r := by
  obtain ⟨r, he, hr⟩ := arena_disjoint 64 16 4096 ⟨4, rfl⟩ (by decide) requests requests_allowed
  refine ⟨r, he, ?_, hr⟩
  obtain rfl := Option.some.inj he
  decide

/-! ## Requests that wrap around -/

/-- `e` lies at most a capacity beyond a multiple of `2 ^ 64`. -/
def WrapsInto (capacity : UInt64) (e : Nat) : Prop := ∃ k, 0 < k ∧ k * 2 ^ 64 ≤ e ∧ e ≤ k * 2 ^ 64 + capacity.toNat

theorem wrapsInto_iff {capacity : UInt64} {e : Nat} :
    WrapsInto capacity e ↔ capacity.toNat < e ∧ e % 2 ^ 64 ≤ capacity.toNat := by
  have hcap := capacity.toNat_lt
  have hdiv := Nat.div_add_mod e (2 ^ 64)
  constructor
  · intro hw
    obtain ⟨k, hk, hle, hge⟩ := hw
    omega
  · intro hw
    refine ⟨e / 2 ^ 64, ?_, ?_, ?_⟩ <;> omega

/-- A request beyond the capacity throws and changes nothing. -/
def Arena.Detects (a : Arena) (bytes alignment : UInt64) : Prop :=
  a.capacity.toNat < a.exactStart alignment + bytes.toNat → a.allocate bytes alignment = (a, none)

/-- `n` objects of `size` bytes get room behind the bytes in use, or `std::bad_alloc` is thrown. -/
def Arena.DetectsObjects (a : Arena) (size align n : UInt64) : Prop :=
  a.allocateObjects size align n = (a, none) ∨ ∃ a' start, a.allocateObjects size align n = (a', some start) ∧
    a.offset.toNat ≤ start.toNat ∧ start.toNat + n.toNat * size.toNat ≤ a.capacity.toNat

theorem Arena.detects_iff (a : Arena) (bytes : UInt64) (ha : ValidAlignment alignment) :
    a.Detects bytes alignment ↔ ¬ WrapsInto a.capacity (a.exactStart alignment + bytes.toNat) := by
  rw [wrapsInto_iff]
  cases a.allocate_cases bytes ha with
  | inl hfail =>
    exact iff_of_true (fun _ => hfail.2) fun hw => Nat.not_lt_of_le hw.2 hfail.1
  | inr hroom =>
    obtain ⟨hle, a', start, he, _⟩ := hroom
    constructor
    · intro hd hw
      have := he.symm.trans (hd hw.1)
      cases this
    · exact fun hw hlt => absurd ⟨hlt, hle⟩ hw

theorem Arena.detectsObjects_iff (a : Arena) (size n : UInt64) {align : UInt64} (ha : ValidAlignment align) :
    a.DetectsObjects size align n ↔ ¬ WrapsInto a.capacity (a.exactStart align + n.toNat * size.toNat) := by
  have hcap := a.capacity.toNat_lt
  have hmod :
    (a.exactStart align + (n * size).toNat) % 2 ^ 64 = (a.exactStart align + n.toNat * size.toNat) % 2 ^ 64 := by
    rw [UInt64.toNat_mul, Nat.add_mod_mod]
  have hcases := a.allocate_cases (n * size) ha
  rw [hmod] at hcases
  rw [wrapsInto_iff]
  cases hcases with
  | inl hfail =>
    exact iff_of_true (Or.inl hfail.2) fun hw => Nat.not_lt_of_le hw.2 hfail.1
  | inr hroom =>
    obtain ⟨hle, a', start, he, hs, _⟩ := hroom
    have hstart := a.start_lt ha
    have hoff := a.offset_le_start ha
    have hlt := a.offset.toNat_lt
    have hlt' := align.toNat_lt
    constructor
    · intro hd hw
      cases hd with
      | inl hnone => cases he.symm.trans hnone
      | inr hsome =>
        obtain ⟨a₁, start₁, he₁, hge, hfit⟩ := hsome
        obtain ⟨_, hst⟩ := Prod.mk.inj (he.symm.trans he₁)
        rw [← Option.some.inj hst, hs] at hge hfit
        omega
    · intro hw
      have hexact : a.exactStart align + n.toNat * size.toNat ≤ a.capacity.toNat :=
        Nat.le_of_not_lt fun hlt => hw ⟨hlt, hle⟩
      have hs' : start.toNat = a.exactStart align := by
        rw [hs]
        exact Nat.mod_eq_of_lt (by omega)
      exact Or.inr ⟨a', start, he, by omega, by omega⟩

/-- **When exhaustion is detected**, in every state: unless the exact end of the request wraps around
into the buffer. -/
theorem exhaustion_iff (a : Arena) :
    (∀ bytes alignment, ValidAlignment alignment →
      (a.Detects bytes alignment ↔ ¬ WrapsInto a.capacity (a.exactStart alignment + bytes.toNat))) ∧
    ∀ size align n, ValidAlignment align →
      (a.DetectsObjects size align n ↔ ¬ WrapsInto a.capacity (a.exactStart align + n.toNat * size.toNat)) :=
  ⟨fun bytes _ ha => a.detects_iff bytes ha, fun size _ n ha => a.detectsObjects_iff size n ha⟩

theorem exhaustion_iff_full : (Arena.mk 16 16 1).Detects 1 8 ∧ (Arena.mk 16 16 1).DetectsObjects 8 8 1 := by
  have hno : ∀ e, e < 2 ^ 64 → ¬ WrapsInto 16 e := by
    intro e he hw
    obtain ⟨k, hk, hle, _⟩ := hw
    omega
  obtain ⟨hbytes, hobjects⟩ := exhaustion_iff (Arena.mk 16 16 1)
  exact ⟨(hbytes 1 8 ⟨3, rfl⟩).mpr (hno _ (by decide)), (hobjects 8 8 1 ⟨3, rfl⟩).mpr (hno _ (by decide))⟩

/-- A full arena grants `2 ^ 64 - 8` bytes and moves its offset back; a fresh one grants `2 ^ 61` objects
of 8 bytes. -/
theorem exhaustion_unnoticed :
    (¬ ∀ calls r, (arena 16).exec calls = some r → ∀ bytes alignment, ValidAlignment alignment →
      r.arena.Detects bytes alignment) ∧
    ¬ ∀ calls r, (arena 16).exec calls = some r → ∀ size align n, ValidAlignment align →
      r.arena.DetectsObjects size align n := by
  constructor
  · intro h
    have hd := h [.allocate 16 1] ⟨⟨16, 16, 1⟩, [⟨0, 16, 1⟩]⟩ rfl 18446744073709551608 8 ⟨3, rfl⟩ (by decide)
    revert hd
    decide
  · intro h
    have hd := h [] ⟨⟨16, 0, 0⟩, []⟩ rfl 8 8 2305843009213693952 ⟨3, rfl⟩
    cases hd with
    | inl hnone => revert hnone; decide
    | inr hsome =>
      obtain ⟨_, start, _, _, hfit⟩ := hsome
      have hfit : start.toNat + 2 ^ 64 ≤ 16 := hfit
      omega

end Playground.CustomAllocator
