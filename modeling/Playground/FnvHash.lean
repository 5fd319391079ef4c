import Mathlib.Algebra.Ring.Parity
import Mathlib.Data.List.Induction
import Playground.Lib.Ascii

/-!
# FNV-1a hashes (`modern_cpp/constexpr_consteval.cpp`, `modern_cpp/practical/compile_time_programming.cpp`)

Both hashes convert a `char` to an unsigned word before the exclusive or, and
`char` is signed. The reference takes the octet itself.
-/

namespace Playground.FnvHash

def fnv1a {w : Nat} (octet : UInt8 → BitVec w) (offset prime : BitVec w) (s : Bytes) : BitVec w :=
  s.foldl (fun hash c => (hash ^^^ octet c) * prime) offset

/-- A signed `char` as an unsigned word. -/
def signed (w : Nat) (c : UInt8) : BitVec w := c.toBitVec.signExtend w

def unsigned (w : Nat) (c : UInt8) : BitVec w := c.toBitVec.setWidth w

def fnv1aHash (str : Bytes) : BitVec 64 := fnv1a (signed 64) 14695981039346656037 1099511628211 str

def compileTimeHash (sv : Bytes) : Int := (fnv1a (signed 32) 2166136261 16777619 sv).toInt

def reference64 (s : Bytes) : BitVec 64 := fnv1a (unsigned 64) 14695981039346656037 1099511628211 s

def reference32 (s : Bytes) : BitVec 32 := fnv1a (unsigned 32) 2166136261 16777619 s

/-! ## Octets -/

section
variable {w : Nat} {c : UInt8}

theorem signed_of_lt (hc : c < 128) : signed w c = unsigned w c := by
  refine BitVec.signExtend_eq_setWidth_of_msb_false ?_
  rw [BitVec.msb_eq_false_iff_two_mul_lt]
  have := UInt8.lt_iff_toNat_lt.mp hc
  exact Nat.mul_lt_mul_of_pos_left this (by decide)

/-- The sign of an octet. -/
def sign (c : UInt8) : BitVec 9 := if 128 ≤ c then 256 else 0

theorem setWidth_signed (hw : 9 ≤ w) (c : UInt8) :
    (signed w c).setWidth 9 = (unsigned w c).setWidth 9 ^^^ sign c := by
  have hext : (signed w c).setWidth 9 = signed 9 c := by
    refine BitVec.eq_of_getLsbD_eq fun i hi => ?_
    rw [signed, signed, BitVec.getLsbD_setWidth, BitVec.getLsbD_signExtend, BitVec.getLsbD_signExtend]
    simp [hi, Nat.lt_of_lt_of_le hi hw]
  have hset : (unsigned w c).setWidth 9 = unsigned 9 c := BitVec.setWidth_setWidth (by omega)
  rw [hext, hset]
  have hall : ∀ x : BitVec 8, x.signExtend 9 = x.setWidth 9 ^^^ (if 128 ≤ x then 256 else 0) := by decide
  exact hall c.toBitVec

end

/-! ## The ninth bit -/

section
variable {w : Nat} {offset prime : BitVec w} {s : Bytes}

theorem fnv1a_congr {octet octet' : UInt8 → BitVec w} (h : ∀ c ∈ s, octet c = octet' c) :
    fnv1a octet offset prime s = fnv1a octet' offset prime s :=
  List.foldl_ext _ _ _ fun hash c hc => by rw [h c hc]

theorem xor_mul {x k q : BitVec 9} (hk : k = 0 ∨ k = 256) (hq : 256 * q = 256) : (x ^^^ k) * q = x * q ^^^ k := by
  have htop : ∀ y : BitVec 9, y ^^^ 256 = y + 256 := by decide
  rcases hk with rfl | rfl
  · simp
  · rw [htop, htop, BitVec.add_mul, hq]

/-- The ninth bit is wrong after an odd number of octets from 128 on. -/
def wrong (s : Bytes) : BitVec 9 := if Odd (s.countP (128 ≤ ·)) then 256 else 0

theorem wrong_cases (s : Bytes) : wrong s = 0 ∨ wrong s = 256 := by
  unfold wrong
  split
  · exact .inr rfl
  · exact .inl rfl

theorem wrong_snoc (s : Bytes) (c : UInt8) : wrong (s ++ [c]) = wrong s ^^^ sign c := by
  rw [wrong, wrong, sign, List.countP_append, List.countP_singleton]
  simp only [decide_eq_true_eq]
  by_cases hc : 128 ≤ c
  · by_cases hs : Odd (s.countP (128 ≤ ·)) <;> simp [hc, hs, Nat.odd_add_one]
  · simp [hc]

theorem setWidth_fnv1a (offset : BitVec w) (hw : 9 ≤ w) (hp : 256 * prime.setWidth 9 = (256 : BitVec 9))
    (s : Bytes) :
    (fnv1a (signed w) offset prime s).setWidth 9 = (fnv1a (unsigned w) offset prime s).setWidth 9 ^^^ wrong s := by
  induction s using List.reverseRecOn with
  | nil => simp [fnv1a, wrong]
  | append_singleton s c ih =>
    rw [wrong_snoc]
    simp only [fnv1a, List.foldl_append, List.foldl_cons, List.foldl_nil] at ih ⊢
    rw [BitVec.setWidth_mul _ _ hw, BitVec.setWidth_mul _ _ hw, BitVec.setWidth_xor, BitVec.setWidth_xor, ih,
      setWidth_signed hw, ← xor_mul (wrong_snoc s c ▸ wrong_cases (s ++ [c])) hp]
    congr 1
    ac_rfl

theorem fnv1a_ne (hw : 9 ≤ w) (hp : 256 * prime.setWidth 9 = (256 : BitVec 9)) (hs : Odd (s.countP (128 ≤ ·))) :
    fnv1a (signed w) offset prime s ≠ fnv1a (unsigned w) offset prime s := by
  intro h
  have hset := setWidth_fnv1a offset hw hp s
  rw [h, wrong, if_pos hs] at hset
  have hne : ∀ x : BitVec 9, x ≠ x ^^^ 256 := by decide
  exact hne _ hset

end

theorem hashes_eq {s : Bytes} (h : ∀ c ∈ s, c < 128) :
    fnv1aHash s = reference64 s ∧ compileTimeHash s = (reference32 s).toInt :=
  ⟨fnv1a_congr fun c hc => signed_of_lt (h c hc),
    congrArg BitVec.toInt (fnv1a_congr fun c hc => signed_of_lt (h c hc))⟩

theorem hashes_ne {s : Bytes} (h : Odd (s.countP (128 ≤ ·))) :
    fnv1aHash s ≠ reference64 s ∧ compileTimeHash s ≠ (reference32 s).toInt :=
  ⟨fnv1a_ne (by decide) (by decide) h, fun heq => fnv1a_ne (by decide) (by decide) h (BitVec.eq_of_toInt_eq heq)⟩

/-- The first octet that goes wrong. -/
theorem exists_prefix_odd {s : Bytes} (h : ¬ ∀ c ∈ s, c < 128) : ∃ t, t <+: s ∧ Odd (t.countP (128 ≤ ·)) := by
  cases hfind : s.find? (128 ≤ ·) with
  | none =>
    refine absurd (fun c hc => ?_) h
    simpa using List.find?_eq_none.mp hfind c hc
  | some c =>
    obtain ⟨hc, a, b, rfl, ha⟩ := List.find?_eq_some_iff_append.mp hfind
    refine ⟨a ++ [c], ⟨b, by simp⟩, ?_⟩
    rw [List.countP_append, List.countP_singleton, if_pos hc, List.countP_eq_zero.mpr (by simpa using ha)]
    decide

/-- The hashes are the reference ones all along exactly if every octet is below 128; with an odd number of octets
from 128 on they are not. -/
theorem hashes_iff (s : Bytes) :
    ((∀ t, t <+: s → fnv1aHash t = reference64 t ∧ compileTimeHash t = (reference32 t).toInt) ↔ ∀ c ∈ s, c < 128) ∧
    (Odd (s.countP (128 ≤ ·)) → fnv1aHash s ≠ reference64 s ∧ compileTimeHash s ≠ (reference32 s).toInt) := by
  refine ⟨⟨fun h => ?_, fun h t ht => hashes_eq fun c hc => h c (ht.subset hc)⟩, hashes_ne⟩
  by_contra hne
  obtain ⟨t, ht, hodd⟩ := exists_prefix_odd hne
  exact (hashes_ne hodd).1 (h t ht).1

theorem hashes_high :
    ¬ (∀ s, fnv1aHash s = reference64 s) ∧ ¬ ∀ s, compileTimeHash s = (reference32 s).toInt :=
  ⟨fun h => absurd (h [128]) (by decide), fun h => absurd (h [128]) (by decide)⟩

-- two wrong octets may undo each other
example : fnv1aHash [32, 255, 128] = reference64 [32, 255, 128] ∧
    compileTimeHash [32, 255, 128] = (reference32 [32, 255, 128]).toInt := by
  decide

end Playground.FnvHash
