import Playground.HashMapSound

/-!
# The load factor

A key that is added may bring the map over its maximal load, and doubling the
buckets once brings it back: if the comparison that decides it is right. It is
made in single precision, where loads close above 3/4 are 3/4.
-/

namespace Playground.HashMap

section
variable {K V : Type} [DecidableEq K] (hash : K → Nat)

/-- The load is at most 3/4, exactly. -/
def Loaded (m : HashMap K V) : Prop := (m.size : ℚ) ≤ 3 / 4 * m.buckets.length

def AddsKey (m : HashMap K V) : Call K V → Prop
  | .insert key _ => locate hash m key = some none
  | .subscript key _ => locate hash m key = some none
  | _ => False

/-- The map as the load factor sees it when a key has been added. -/
def oneMore (m : HashMap K V) : HashMap K V := { m with size := m.size + 1 }

/-- A load over 3/4 is found to be. -/
def RoundsRight (m : HashMap K V) (c : Call K V) : Prop :=
  AddsKey hash m c → 3 / 4 * (m.buckets.length : ℚ) < (m.size + 1 : Nat) → loadFactor (oneMore m) > maxLoadFactor

/-- What a call does to the size and to the number of buckets. -/
inductive Resized (m m' : HashMap K V) (c : Call K V) : Prop
  | kept (hc : ¬ AddsKey hash m c) (hsize : m'.size ≤ m.size) (hlen : m'.buckets.length = m.buckets.length)
  | added (hc : AddsKey hash m c) (hload : loadFactor (oneMore m) ≤ maxLoadFactor) (hsize : m'.size = m.size + 1)
      (hlen : m'.buckets.length = m.buckets.length)
  | doubled (hc : AddsKey hash m c) (hload : loadFactor (oneMore m) > maxLoadFactor) (hsize : m'.size = m.size + 1)
      (hlen : m'.buckets.length = m.buckets.length * 2)

/-! ## One call -/

section
variable {hash} {m m' : HashMap K V} {f : K → Option V}

omit [DecidableEq K] in
theorem store_size {ref : Ref} {v : V} (h : store m ref v = some m') :
    m'.size = m.size ∧ m'.buckets.length = m.buckets.length := by
  unfold store at h
  obtain ⟨b, -, h⟩ := Option.bind_eq_some_iff.mp h
  obtain ⟨e, -, h⟩ := Option.bind_eq_some_iff.mp h
  obtain rfl := Option.some.inj h
  exact ⟨rfl, List.length_set ..⟩

omit [DecidableEq K] in
theorem emplaceBack_size {i : Nat} {k : K} {v : V} (h : emplaceBack m i k v = some m') :
    m'.size = m.size + 1 ∧ m'.buckets.length = m.buckets.length := by
  unfold emplaceBack at h
  obtain ⟨b, -, h⟩ := Option.bind_eq_some_iff.mp h
  obtain rfl := Option.some.inj h
  exact ⟨rfl, List.length_set ..⟩

theorem erase_size {k : K} {b : Bool} (h : erase hash m k = some (m', b)) :
    m'.size ≤ m.size ∧ m'.buckets.length = m.buckets.length := by
  unfold erase at h
  obtain ⟨ref, -, h⟩ := Option.bind_eq_some_iff.mp h
  cases ref with
  | none =>
    obtain ⟨rfl, -⟩ := Prod.mk.inj (Option.some.inj h)
    exact ⟨Nat.le_refl _, rfl⟩
  | some ref =>
    obtain ⟨b, -, h⟩ := Option.bind_eq_some_iff.mp h
    obtain ⟨rfl, -⟩ := Prod.mk.inj (Option.some.inj h)
    exact ⟨Nat.sub_le .., List.length_set ..⟩

theorem resized_of_emplaceBack {c : Call K V} {i : Nat} {k : K} {v : V} {m₁ : HashMap K V}
    (hn : 0 < m.buckets.length) (hc : AddsKey hash m c) (h : emplaceBack m i k v = some m₁)
    (hm' : m' = if loadFactor m₁ > maxLoadFactor then rehash hash m₁ (m₁.buckets.length * 2) else m₁) :
    Resized hash m m' c := by
  obtain ⟨hs₁, hl₁⟩ := emplaceBack_size h
  have hload : loadFactor m₁ = loadFactor (oneMore m) := by simp only [loadFactor, oneMore, hs₁, hl₁]
  rw [hload] at hm'
  split at hm' <;> rename_i hgt <;> subst hm'
  · rw [hl₁]
    exact .doubled hc hgt hs₁ (rehash_spec hash m₁ (Nat.mul_pos hn Nat.zero_lt_two)).1
  · exact .added hc (not_lt.mp hgt) hs₁ hl₁

theorem Table.resized_insert (h : Table hash m f) {k : K} {v : V} (hs : HashMap.insert hash m k v = some m') :
    Resized hash m m' (.insert k v) := by
  unfold HashMap.insert at hs
  rcases h.locate k with ⟨-, hloc⟩ | ⟨_, ref, -, hloc, -⟩
  · simp only [hloc, Option.bind_eq_bind, Option.bind_some] at hs
    obtain ⟨m₁, hm₁, hs⟩ := Option.bind_eq_some_iff.mp hs
    apply resized_of_emplaceBack h.pos (c := .insert k v) hloc hm₁
    split at hs <;> rename_i hload
    · rw [if_pos hload, ← Option.some.inj hs]
    · rw [if_neg hload, ← Option.some.inj hs]
  · simp only [hloc, Option.bind_eq_bind, Option.bind_some] at hs
    obtain ⟨hsize, hlen⟩ := store_size hs
    exact .kept (by simp [AddsKey, hloc]) (Nat.le_of_eq hsize) hlen

theorem Table.resized_subscript [Inhabited V] (h : Table hash m f) {k : K} {w : Option V} {ref : Ref}
    (hs : HashMap.subscript hash m (.outside k) = some (m', ref)) : Resized hash m m' (.subscript k w) := by
  unfold HashMap.subscript at hs
  rcases h.locate k with ⟨-, hloc⟩ | ⟨_, ref, -, hloc, -⟩
  · simp only [Arg.read_outside, hloc, Option.bind_eq_bind, Option.bind_some] at hs
    obtain ⟨m₁, hm₁, hs⟩ := Option.bind_eq_some_iff.mp hs
    apply resized_of_emplaceBack h.pos (c := .subscript k w) hloc hm₁
    split at hs <;> rename_i hload
    · rw [if_pos hload]
      obtain ⟨r, -, hs⟩ := Option.bind_eq_some_iff.mp hs
      cases r with
      | none =>
        obtain ⟨_, -, hs⟩ := Option.map_eq_some_iff.mp hs
        exact (Prod.mk.inj hs).1.symm
      | some ref => exact (Prod.mk.inj (Option.some.inj hs)).1.symm
    · rw [if_neg hload]
      obtain ⟨_, -, hs⟩ := Option.map_eq_some_iff.mp hs
      exact (Prod.mk.inj hs).1.symm
  · simp only [Arg.read_outside, hloc, Option.bind_eq_bind, Option.bind_some] at hs
    obtain ⟨rfl, -⟩ := Prod.mk.inj (Option.some.inj hs)
    exact .kept (by simp [AddsKey, hloc]) (Nat.le_refl _) rfl

theorem Resized.write {c : Call K V} {m'' : HashMap K V} (h : Resized hash m m' c) (hsize : m''.size = m'.size)
    (hlen : m''.buckets.length = m'.buckets.length) : Resized hash m m'' c := by
  cases h with
  | kept hc hs hl => exact .kept hc (hsize.trans_le hs) (hlen.trans hl)
  | added hc hload hs hl => exact .added hc hload (hsize.trans hs) (hlen.trans hl)
  | doubled hc hload hs hl => exact .doubled hc hload (hsize.trans hs) (hlen.trans hl)

theorem Table.resized [Inhabited V] (h : Table hash m f) {c : Call K V} {o : Result V}
    (hs : step hash m c = some (m', o)) : Resized hash m m' c := by
  cases c with
  | insert k v =>
    obtain ⟨m₁, hm₁, heq⟩ := Option.map_eq_some_iff.mp hs
    obtain ⟨rfl, -⟩ := Prod.mk.inj heq
    exact h.resized_insert hm₁
  | find k =>
    obtain ⟨_, -, heq⟩ := Option.map_eq_some_iff.mp hs
    obtain ⟨rfl, -⟩ := Prod.mk.inj heq
    exact .kept (fun hc => hc) (Nat.le_refl _) rfl
  | erase k =>
    obtain ⟨⟨m₁, b⟩, hm₁, heq⟩ := Option.map_eq_some_iff.mp hs
    obtain ⟨rfl, -⟩ := Prod.mk.inj heq
    obtain ⟨hsize, hlen⟩ := erase_size hm₁
    exact .kept (fun hc => hc) hsize hlen
  | subscript k w =>
    obtain ⟨⟨m₁, ref⟩, hm₁, hs⟩ := Option.bind_eq_some_iff.mp hs
    obtain ⟨e, -, hs⟩ := Option.bind_eq_some_iff.mp hs
    cases w with
    | none =>
      obtain ⟨rfl, -⟩ := Prod.mk.inj (Option.some.inj hs)
      exact h.resized_subscript hm₁
    | some v =>
      obtain ⟨m₂, hm₂, heq⟩ := Option.map_eq_some_iff.mp hs
      obtain ⟨rfl, -⟩ := Prod.mk.inj heq
      obtain ⟨hsize, hlen⟩ := store_size hm₂
      exact (h.resized_subscript hm₁).write hsize hlen

theorem Resized.loaded_iff {c : Call K V} (h : Resized hash m m' c) (hn : 0 < m.buckets.length) (hl : Loaded m) :
    Loaded m' ↔ RoundsRight hash m c := by
  unfold Loaded RoundsRight at *
  cases h with
  | kept hc hsize hlen =>
    apply iff_of_true _ fun h => absurd h hc
    rw [hlen]
    exact le_trans (by exact_mod_cast hsize) hl
  | added hc hload hsize hlen =>
    rw [hsize, hlen]
    constructor
    · exact fun hle _ hlt => absurd hle (not_le.mpr hlt)
    · exact fun hr => not_lt.mp fun hlt => absurd (hr hc hlt) (not_lt.mpr hload)
  | doubled hc hload hsize hlen =>
    apply iff_of_true _ fun _ _ => hload
    rw [hsize, hlen]
    have hnat : 4 * m.size ≤ 3 * m.buckets.length := by
      have : (4 * m.size : ℚ) ≤ 3 * m.buckets.length := by linarith
      exact_mod_cast this
    have hgoal : 4 * (m.size + 1) ≤ 3 * (m.buckets.length * 2) := by omega
    have : (4 * (m.size + 1 : Nat) : ℚ) ≤ 3 * (m.buckets.length * 2 : Nat) := by exact_mod_cast hgoal
    linarith

end

/-! ## Single precision -/

section
variable {m : HashMap K V} (hs : m.size < 2 ^ 24) (hn : m.buckets.length < 2 ^ 24)

include hs hn

omit [DecidableEq K] in
theorem loadFactor_eq : loadFactor m = Binary32.round (m.size / m.buckets.length) := by
  rw [loadFactor, Binary32.round_natCast hs, Binary32.round_natCast hn]

omit [DecidableEq K] in
/-- With at most 2 ^ 23 buckets, a load over 3/4 is over it by more than that. -/
theorem lt_loadFactor (hb : m.buckets.length ≤ 2 ^ 23) (hle : m.size ≤ m.buckets.length)
    (h : 3 * m.buckets.length < 4 * m.size) : maxLoadFactor < loadFactor m := by
  have hb0 : (0 : ℚ) < m.buckets.length := by
    have : 0 < m.buckets.length := by omega
    exact_mod_cast this
  rw [loadFactor_eq hs hn, maxLoadFactor]
  rcases Nat.lt_or_eq_of_le hle with hlt | heq
  · have hq1 : (m.size / m.buckets.length : ℚ) < 1 := by
      rw [div_lt_one hb0]
      exact_mod_cast hlt
    have hq : (3 * 2 ^ 22 + 1 / 2 : ℚ) < m.size / m.buckets.length * 2 ^ 24 := by
      have hnat : (3 * 2 ^ 23 + 1) * m.buckets.length < 2 ^ 25 * m.size := by
        have hmul := Nat.mul_le_mul_left (2 ^ 23) h
        rcases Nat.lt_or_eq_of_le hb with hb | hb <;> omega
      have hc :
        (((3 * 2 ^ 23 + 1) * m.buckets.length : Nat) : ℚ) < (2 ^ 25 * m.size : Nat) := by exact_mod_cast hnat
      push_cast at hc
      rw [div_mul_eq_mul_div, lt_div_iff₀ hb0]
      linarith
    have := Binary32.lt_round (n := 3 * 2 ^ 22) (by linarith) hq1 (by push_cast; linarith)
    push_cast at this
    linarith
  · have hone : Binary32.round 1 = 1 := by exact_mod_cast Binary32.round_natCast (n := 1) (by decide)
    rw [heq, div_self hb0.ne', hone]
    norm_num

end

omit [DecidableEq K] in
theorem loaded_iff {m : HashMap K V} : Loaded m ↔ 4 * m.size ≤ 3 * m.buckets.length := by
  have h : Loaded m ↔ ((4 * m.size : Nat) : ℚ) ≤ (3 * m.buckets.length : Nat) := by
    unfold Loaded
    push_cast
    constructor <;> intro h <;> linarith
  rw [h]
  exact Nat.cast_le

theorem roundsRight_of_le {m : HashMap K V} (hl : Loaded m) (hpos : 0 < m.buckets.length)
    (hn : m.buckets.length ≤ 2 ^ 23) (c : Call K V) : RoundsRight hash m c := by
  intro _ hlt
  have hnat := loaded_iff.mp hl
  have hover : ¬ Loaded (oneMore m) := not_le.mpr hlt
  rw [loaded_iff] at hover
  simp only [oneMore] at hover
  exact lt_loadFactor (m := oneMore m) (by simp only [oneMore]; omega) (by simp only [oneMore]; omega) hn
    (by simp only [oneMore]; omega) (by simp only [oneMore]; omega)

/-! ## Runs -/

/-- What holds whatever the rounding does. -/
structure Doubled (b : Nat) (m : HashMap K V) : Prop where
  table : ∃ f, Table hash m f
  power : ∃ k, m.buckets.length = b * 2 ^ k

variable {hash} [Inhabited V]

omit [Inhabited V] in
theorem Resized.doubles {m m' : HashMap K V} {c : Call K V} (h : Resized hash m m' c) :
    ∃ k ≤ 1, m'.buckets.length = m.buckets.length * 2 ^ k := by
  cases h with
  | kept _ _ hlen => exact ⟨0, Nat.zero_le _, by simpa using hlen⟩
  | added _ _ _ hlen => exact ⟨0, Nat.zero_le _, by simpa using hlen⟩
  | doubled _ _ _ hlen => exact ⟨1, Nat.le_refl _, by simpa using hlen⟩

theorem Doubled.step {b : Nat} {m : HashMap K V} (h : Doubled hash b m) (c : Call K V) :
    ∃ m' o, HashMap.step hash m c = some (m', o) ∧ Doubled hash b m' := by
  obtain ⟨⟨f, hf⟩, k, hk⟩ := h
  obtain ⟨m', hs, hf'⟩ := (hashMap_simulates hash Nat.one_pos).step m f c hf
  obtain ⟨j, -, hj⟩ := (hf.resized hs).doubles
  exact ⟨m', _, hs, ⟨_, hf'⟩, k + j, by rw [hj, hk, Nat.mul_assoc, Nat.pow_add]⟩

theorem doubled_init {b : Nat} (hb : 0 < b) : Doubled hash b (hashMap (V := V) hash b).init :=
  ⟨⟨_, table_init hash hb⟩, 0, by simp [hashMap]⟩

theorem doubled_exec (hash : K → Nat) {b : Nat} (hb : 0 < b) (cs : List (Call K V)) :
    ∃ m, (hashMap hash b).exec cs = some m ∧ Doubled hash b m :=
  (hashMap hash b).exec_inv (P := fun _ m => Doubled hash b m) (doubled_init hb) (fun _ _ c _ h => h.step c) cs

theorem loaded_exec_iff {b : Nat} (hb : 0 < b) (cs : List (Call K V)) :
    (∀ cs', cs' <+: cs → ∃ m, (hashMap hash b).exec cs' = some m ∧ Loaded m) ↔
      (hashMap hash b).Guarded (RoundsRight hash) cs := by
  apply (hashMap hash b).guarded_iff (I := Doubled hash b) (doubled_init hb) _ (fun m c h => h.step c)
  · intro m c m' o h _ hl hs
    obtain ⟨⟨f, hf⟩, -⟩ := h
    exact (hf.resized hs).loaded_iff hf.pos hl
  · rw [loaded_iff]
    exact Nat.zero_le _

theorem guarded_of_few {b : Nat} (hb : 0 < b) (cs : List (Call K V))
    (hg : (hashMap hash b).Guarded (fun m _ => m.buckets.length ≤ 2 ^ 23) cs) :
    (hashMap hash b).Guarded (RoundsRight hash) cs := by
  induction cs using List.reverseRecOn with
  | nil => trivial
  | append_singleton cs c ih =>
    rw [Machine.guarded_snoc] at hg ⊢
    have hcs := ih hg.1
    refine ⟨hcs, fun m he => ?_⟩
    obtain ⟨m₁, he₁, ⟨f, hf⟩, -⟩ := doubled_exec hash hb cs
    obtain ⟨m₂, he₂, hl⟩ := (loaded_exec_iff hb cs).mpr hcs cs (List.prefix_refl cs)
    obtain rfl := Option.some.inj (he₁.symm.trans he)
    obtain rfl := Option.some.inj (he₂.symm.trans he)
    exact roundsRight_of_le hash hl hf.pos (hg.2 m₂ he) c

end

def fill (n : Nat) : List (Call Nat Nat) := (List.range n).map fun k => .insert k k

end Playground.HashMap
