import Playground.Lib.Loop
import Playground.Lib.Vec

/-!
# Two layouts of particles (`systems/hpc_gpu/simd_vectorization.cpp`)

`F` stands for `float` with the machine's own addition and multiplication, of
which nothing is assumed: the two layouts are to agree to the last bit. An
element outside a vector has no value.
-/

namespace Playground.SimdVectorization

structure ParticleAoS (F : Type) where
  x : F
  y : F
  z : F
  vx : F
  vy : F
  vz : F
  mass : F
  padding : F

structure ParticlesSoA (F : Type) where
  x : List F
  y : List F
  z : List F
  vx : List F
  vy : List F
  vz : List F
  mass : List F

section
variable {F : Type} [Add F] [Mul F]

def updatePositionsAoS (particles : List (ParticleAoS F)) (dt : F) : List (ParticleAoS F) :=
  particles.map fun p => { p with x := p.x + p.vx * dt, y := p.y + p.vy * dt, z := p.z + p.vz * dt }

/-- `x[i] += v[i] * dt` -/
def addRound (v : List F) (dt : F) (x : List F) (i : Nat) : Option (List F) := do
  let xi ← x[i]?
  let vi ← v[i]?
  Vec.write x i (xi + vi * dt)

def addLoop (x v : List F) (dt : F) (n : Nat) : Option (List F) := (List.range n).foldlM (addRound v dt) x

def updatePositionsSoA (p : ParticlesSoA F) (dt : F) (n : Nat) : Option (ParticlesSoA F) := do
  let x ← addLoop p.x p.vx dt n
  let y ← addLoop p.y p.vy dt n
  let z ← addLoop p.z p.vz dt n
  some { p with x, y, z }

/-! ## One loop -/

/-- The first `n` elements are advanced. -/
def advance (v : List F) (dt : F) (n : Nat) (x : List F) : List F :=
  x.mapIdx fun j xj => if j < n then (v[j]?).elim xj fun vj => xj + vj * dt else xj

variable {x v : List F} {dt : F} {n : Nat}

theorem length_advance : (advance v dt n x).length = x.length := List.length_mapIdx

theorem getElem?_advance (j : Nat) : (advance v dt n x)[j]? =
    x[j]?.map fun xj => if j < n then (v[j]?).elim xj fun vj => xj + vj * dt else xj := List.getElem?_mapIdx

theorem advance_zero : advance v dt 0 x = x := by
  apply List.ext_getElem?
  intro j
  rw [getElem?_advance]
  simp

/-- The next element is still as it was, and changes alone. -/
theorem set_advance {i : Nat} (hx : i < x.length) (hv : i < v.length) :
    (advance v dt i x).set i (x[i] + v[i] * dt) = advance v dt (i + 1) x := by
  apply List.ext_getElem?
  intro j
  rw [List.getElem?_set, length_advance, getElem?_advance, getElem?_advance]
  by_cases hji : i = j
  · subst hji
    simp [hx, hv]
  · have hlt : j < i + 1 ↔ j < i := by omega
    rw [if_neg hji]
    simp only [hlt]

theorem addRound_iff (i : Nat) (t : List F) : addRound v dt (advance v dt i x) i = some t ↔
    (i < x.length ∧ i < v.length) ∧ advance v dt (i + 1) x = t := by
  have hget : (advance v dt i x)[i]? = x[i]? := by
    rw [getElem?_advance]
    simp
  rw [addRound, hget]
  by_cases hx : i < x.length
  · by_cases hv : i < v.length
    · have hwrite := Vec.write_of (v := advance v dt i x) (by rw [length_advance]; exact hx) (x[i] + v[i] * dt)
      rw [List.getElem?_eq_getElem hx, List.getElem?_eq_getElem hv]
      show Vec.write _ i _ = some t ↔ _
      rw [hwrite, set_advance hx hv, Option.some_inj]
      exact (and_iff_right ⟨hx, hv⟩).symm
    · rw [List.getElem?_eq_getElem hx, List.getElem?_eq_none (Nat.le_of_not_lt hv)]
      exact iff_of_false nofun fun h => hv h.1.2
  · rw [List.getElem?_eq_none (Nat.le_of_not_lt hx)]
    exact iff_of_false nofun fun h => hx h.1.1

theorem addLoop_iff {t : List F} :
    addLoop x v dt n = some t ↔ (n ≤ x.length ∧ n ≤ v.length) ∧ advance v dt n x = t := by
  have hround : ∀ (i : Nat) (hi : i < (List.range n).length) (u : List F),
      addRound v dt (advance v dt i x) (List.range n)[i] = some u ↔
        (i < x.length ∧ i < v.length) ∧ advance v dt (i + 1) x = u := by
    intro i hi u
    rw [List.getElem_range]
    exact addRound_iff i u
  have hloop := Loop.forEach_iff (s := fun i => advance v dt i x) hround (t := t)
  rw [advance_zero, List.length_range] at hloop
  rw [addLoop, hloop]
  refine and_congr_left fun _ => ⟨fun h => ?_, fun h i hi => ⟨Nat.lt_of_lt_of_le hi h.1, Nat.lt_of_lt_of_le hi h.2⟩⟩
  cases n with
  | zero => exact ⟨Nat.zero_le _, Nat.zero_le _⟩
  | succ n => exact h n (Nat.lt_succ_self n)

/-! ## Both layouts -/

/-- All that the loops read and write is there. -/
def ParticlesSoA.Covers (p : ParticlesSoA F) (n : Nat) : Prop :=
  (n ≤ p.x.length ∧ n ≤ p.vx.length) ∧ (n ≤ p.y.length ∧ n ≤ p.vy.length) ∧ n ≤ p.z.length ∧ n ≤ p.vz.length

def ParticlesSoA.advance (p : ParticlesSoA F) (dt : F) (n : Nat) : ParticlesSoA F :=
  { p with
    x := SimdVectorization.advance p.vx dt n p.x
    y := SimdVectorization.advance p.vy dt n p.y
    z := SimdVectorization.advance p.vz dt n p.z }

theorem updatePositionsSoA_iff {p q : ParticlesSoA F} :
    updatePositionsSoA p dt n = some q ↔ p.Covers n ∧ p.advance dt n = q := by
  simp only [updatePositionsSoA, Option.bind_eq_bind, Option.bind_eq_some_iff, addLoop_iff, Option.some_inj]
  constructor
  · rintro ⟨_, ⟨hx, rfl⟩, _, ⟨hy, rfl⟩, _, ⟨hz, rfl⟩, rfl⟩
    exact ⟨⟨hx, hy, hz⟩, rfl⟩
  · rintro ⟨⟨hx, hy, hz⟩, rfl⟩
    exact ⟨_, ⟨hx, rfl⟩, _, ⟨hy, rfl⟩, _, ⟨hz, rfl⟩, rfl⟩

/-- The same particles, field by field; `padding` is in no vector. -/
def toSoA (particles : List (ParticleAoS F)) : ParticlesSoA F where
  x := particles.map (·.x)
  y := particles.map (·.y)
  z := particles.map (·.z)
  vx := particles.map (·.vx)
  vy := particles.map (·.vy)
  vz := particles.map (·.vz)
  mass := particles.map (·.mass)

theorem advance_map (f g : ParticleAoS F → F) (particles : List (ParticleAoS F)) :
    advance (particles.map g) dt particles.length (particles.map f) = particles.map fun p => f p + g p * dt := by
  apply List.ext_getElem?
  intro j
  rw [getElem?_advance, List.getElem?_map, List.getElem?_map, List.getElem?_map]
  by_cases hj : j < particles.length
  · rw [List.getElem?_eq_getElem hj]
    exact congrArg some (if_pos hj)
  · rw [List.getElem?_eq_none (Nat.le_of_not_lt hj)]
    rfl

theorem advance_toSoA (particles : List (ParticleAoS F)) (dt : F) :
    (toSoA particles).advance dt particles.length = toSoA (updatePositionsAoS particles dt) := by
  simp only [ParticlesSoA.advance, toSoA, updatePositionsAoS, advance_map, List.map_map, Function.comp_def]

omit [Add F] [Mul F] in
theorem covers_toSoA (particles : List (ParticleAoS F)) : (toSoA particles).Covers particles.length := by
  simp [ParticlesSoA.Covers, toSoA]

theorem updatePositionsSoA_toSoA (particles : List (ParticleAoS F)) (dt : F) :
    updatePositionsSoA (toSoA particles) dt particles.length = some (toSoA (updatePositionsAoS particles dt)) :=
  updatePositionsSoA_iff.mpr ⟨covers_toSoA particles, advance_toSoA particles dt⟩

/-- **The two layouts agree**, to the last bit and after any number of steps; and the loops over vectors that were
not made together stay inside them exactly when none of the six is shorter than `n`. -/
theorem layouts_agree (F : Type) [Add F] [Mul F] :
    (∀ (dts : List F) (particles : List (ParticleAoS F)),
      dts.foldlM (fun p dt => updatePositionsSoA p dt particles.length) (toSoA particles) =
        some (toSoA (dts.foldl updatePositionsAoS particles))) ∧
      ∀ (p q : ParticlesSoA F) (dt : F) (n : Nat), updatePositionsSoA p dt n = some q ↔
        p.Covers n ∧ p.advance dt n = q := by
  refine ⟨fun dts => ?_, fun p q dt n => updatePositionsSoA_iff⟩
  induction dts with
  | nil => exact fun particles => rfl
  | cons dt dts ih =>
    intro particles
    have hlen : (updatePositionsAoS particles dt).length = particles.length := List.length_map _
    rw [List.foldlM_cons, updatePositionsSoA_toSoA, ← hlen]
    exact ih (updatePositionsAoS particles dt)

end

end Playground.SimdVectorization
