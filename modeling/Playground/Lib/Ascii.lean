import Mathlib.Data.List.Basic
import Mathlib.Data.List.Induction

/-!
# Texts as bytes

A byte string is a list of bytes. Texts and decimal numerals of ASCII
characters as byte strings.
-/

abbrev Bytes := List UInt8

namespace Ascii

def byte (c : Char) : UInt8 := c.val.toUInt8

def bytes (s : String) : Bytes := s.toList.map byte

/-- The decimal numeral of a number. -/
def decimal (n : Nat) : Bytes := (Nat.toDigits 10 n).map byte

theorem digit_of_mem_decimal {n : Nat} {b : UInt8} (h : b ∈ decimal n) : byte '0' ≤ b ∧ b ≤ byte '9' := by
  obtain ⟨c, hc, rfl⟩ := List.mem_map.mp h
  have hd := Nat.isDigit_of_mem_toDigits (by decide) (by decide) hc
  simp only [Char.isDigit, ge_iff_le, Bool.and_eq_true, decide_eq_true_eq] at hd
  obtain ⟨h₁, h₂⟩ := hd
  rw [UInt32.le_iff_toNat_le] at h₁ h₂
  have hv : (byte c).toNat = c.val.toNat := by
    unfold byte
    rw [UInt32.toNat_toUInt8]
    apply Nat.mod_eq_of_lt
    exact Nat.lt_of_le_of_lt h₂ (by decide)
  rw [UInt8.le_iff_toNat_le, UInt8.le_iff_toNat_le, hv]
  exact ⟨h₁, h₂⟩

/-! ## Reading numerals -/

def isDigit (b : UInt8) : Bool := byte '0' ≤ b && b ≤ byte '9'

def ofDigits (ds : Bytes) : Nat := ds.foldl (fun n b => 10 * n + (b.toNat - (byte '0').toNat)) 0

/-- The numeral at the front of a text, and what follows it. -/
def readNat (s : Bytes) : Option (Nat × Bytes) :=
  if s.takeWhile isDigit = [] then none else some (ofDigits (s.takeWhile isDigit), s.dropWhile isDigit)

/-- One with a sign in front of it, or none. -/
def readInt : Bytes → Option (Int × Bytes)
  | [] => none
  | b :: t =>
    if b = byte '-' then (readNat t).map fun p => (-(p.1 : Int), p.2)
    else if b = byte '+' then (readNat t).map fun p => ((p.1 : Int), p.2)
    else (readNat (b :: t)).map fun p => ((p.1 : Int), p.2)

/-- The decimal numeral of an integer. -/
def ofInt (x : Int) : Bytes := if x < 0 then byte '-' :: decimal x.natAbs else decimal x.natAbs

theorem isDigit_of_mem_decimal {n : Nat} {b : UInt8} (h : b ∈ decimal n) : isDigit b = true := by
  obtain ⟨h₁, h₂⟩ := digit_of_mem_decimal h
  simp [isDigit, h₁, h₂]

theorem decimal_ne_nil (n : Nat) : decimal n ≠ [] := by
  rw [decimal, ne_eq, List.map_eq_nil_iff]
  exact Nat.toDigits_ne_nil

theorem ofDigits_decimal (n : Nat) : ofDigits (decimal n) = n := by
  have hchar : ∀ c ∈ Nat.toDigits 10 n, (byte c).toNat = c.toNat := by
    intro c hc
    have hd := Nat.isDigit_of_mem_toDigits (by decide) (by decide) hc
    simp only [Char.isDigit, ge_iff_le, Bool.and_eq_true, decide_eq_true_eq] at hd
    rw [byte, UInt32.toNat_toUInt8]
    exact Nat.mod_eq_of_lt (Nat.lt_of_le_of_lt (UInt32.le_iff_toNat_le.mp hd.2) (by decide))
  rw [ofDigits, decimal, List.foldl_map]
  conv_rhs => rw [← Nat.ofDigitChars_ten_toDigits (n := n)]
  rw [Nat.ofDigitChars_eq_foldl]
  exact List.foldl_ext _ _ _ fun k c hc => by
    rw [hchar c hc]
    rfl

theorem readNat_decimal (n : Nat) {rest : Bytes} (h : ∀ b ∈ rest.head?, isDigit b = false) :
    readNat (decimal n ++ rest) = some (n, rest) := by
  have hdig : ∀ b ∈ decimal n, isDigit b = true := fun b => isDigit_of_mem_decimal
  have htake : rest.takeWhile isDigit = [] := by
    cases rest with
    | nil => rfl
    | cons b t => rw [List.takeWhile_cons_of_neg (by simp [h b rfl])]
  have hdrop : rest.dropWhile isDigit = rest := by
    cases rest with
    | nil => rfl
    | cons b t => rw [List.dropWhile_cons_of_neg (by simp [h b rfl])]
  rw [readNat, List.takeWhile_append_of_pos hdig, List.dropWhile_append_of_pos hdig, htake, hdrop, List.append_nil,
    if_neg (decimal_ne_nil n), ofDigits_decimal]

theorem ofInt_eq_cons (x : Int) : ∃ b t, ofInt x = b :: t ∧ (b = byte '-' ∨ isDigit b = true) := by
  rw [ofInt]
  split
  · exact ⟨_, _, rfl, .inl rfl⟩
  · obtain ⟨b, t, h⟩ := List.exists_cons_of_ne_nil (decimal_ne_nil x.natAbs)
    exact ⟨b, t, h, .inr (isDigit_of_mem_decimal (h ▸ List.mem_cons_self))⟩

theorem mem_ofInt {x : Int} {b : UInt8} (h : b ∈ ofInt x) : b = byte '-' ∨ isDigit b = true := by
  rw [ofInt] at h
  split at h
  · rcases List.mem_cons.mp h with h | h
    · exact .inl h
    · exact .inr (isDigit_of_mem_decimal h)
  · exact .inr (isDigit_of_mem_decimal h)

theorem readInt_ofInt (x : Int) {rest : Bytes} (h : ∀ b ∈ rest.head?, isDigit b = false) :
    readInt (ofInt x ++ rest) = some (x, rest) := by
  by_cases hx : x < 0
  · rw [ofInt, if_pos hx, List.cons_append, readInt, if_pos rfl, readNat_decimal _ h, Option.map_some]
    congr 2
    omega
  · rw [ofInt, if_neg hx]
    obtain ⟨b, t, ht⟩ := List.exists_cons_of_ne_nil (decimal_ne_nil x.natAbs)
    have hb : isDigit b = true := isDigit_of_mem_decimal (ht ▸ List.mem_cons_self)
    have hread := readNat_decimal x.natAbs h
    rw [ht, List.cons_append] at hread ⊢
    rw [readInt, if_neg (by rintro rfl; cases hb), if_neg (by rintro rfl; cases hb), hread, Option.map_some]
    congr 2
    omega

/-! ## Leading zeros -/

theorem ofInt_inj {x y : Int} (h : ofInt x = ofInt y) : x = y := by
  have hx := @readInt_ofInt x [] (by simp)
  have hy := @readInt_ofInt y [] (by simp)
  rw [h, hy] at hx
  exact (congrArg Prod.fst (Option.some_inj.mp hx)).symm

theorem ofDigits_snoc (ds : Bytes) (b : UInt8) :
    ofDigits (ds ++ [b]) = 10 * ofDigits ds + (b.toNat - (byte '0').toNat) := by
  simp [ofDigits]

theorem ofDigits_zeros (k : Nat) (ds : Bytes) : ofDigits (List.replicate k (byte '0') ++ ds) = ofDigits ds := by
  induction k with
  | zero => rfl
  | succ k ih => exact ih

theorem decimal_digit {b : UInt8} (h : isDigit b = true) :
    b.toNat - (byte '0').toNat < 10 ∧ decimal (b.toNat - (byte '0').toNat) = [b] := by
  simp only [isDigit, Bool.and_eq_true, decide_eq_true_eq, UInt8.le_iff_toNat_le] at h
  have hzero : (byte '0').toNat = 48 := by decide
  have hnine : (byte '9').toNat = 57 := by decide
  have hall : ∀ d < 10, decimal d = [UInt8.ofNat (48 + d)] := by decide
  refine ⟨by omega, ?_⟩
  rw [hall _ (by omega), show 48 + (b.toNat - (byte '0').toNat) = b.toNat by omega, UInt8.ofNat_toNat]

/-- Every text of digits is the numeral of its value with some zeros in front. -/
theorem eq_zeros_append_decimal {ds : Bytes} (hne : ds ≠ []) (h : ∀ b ∈ ds, isDigit b = true) :
    ∃ k, ds = List.replicate k (byte '0') ++ decimal (ofDigits ds) := by
  induction ds using List.reverseRecOn with
  | nil => exact absurd rfl hne
  | append_singleton ds b ih =>
    obtain ⟨hlt, hb⟩ := decimal_digit (h b (by simp))
    rw [ofDigits_snoc]
    generalize b.toNat - (byte '0').toNat = d at hlt hb
    by_cases hnil : ds = []
    · subst hnil
      exact ⟨0, by simpa [ofDigits] using hb.symm⟩
    · obtain ⟨k, hk⟩ := ih hnil fun b hb => h b (List.mem_append_left _ hb)
      rcases Nat.eq_zero_or_pos (ofDigits ds) with hz | hpos
      · rw [hz] at hk ⊢
        refine ⟨k + 1, ?_⟩
        rw [Nat.mul_zero, Nat.zero_add, hb, hk, List.replicate_succ']
        rfl
      · refine ⟨k, ?_⟩
        have happend : decimal (10 * ofDigits ds + d) = decimal (ofDigits ds) ++ decimal d := by
          rw [decimal, ← Nat.toDigits_append_toDigits (by decide) hpos hlt, List.map_append]
          rfl
        rw [happend, hb, ← List.append_assoc, ← hk]

/-! ## Texts taken apart -/

section
variable {α : Type*} {c : α}

theorem indent_inj {i j : Nat} {a b : α} {u v : List α} (ha : a ≠ c) (hb : b ≠ c)
    (heq : List.replicate i c ++ a :: u = List.replicate j c ++ b :: v) : i = j ∧ a :: u = b :: v := by
  induction i generalizing j with
  | zero =>
    cases j with
    | zero => exact ⟨rfl, heq⟩
    | succ j => exact absurd (List.cons.inj heq).1 ha
  | succ i ih =>
    cases j with
    | zero => exact absurd (List.cons.inj heq).1.symm hb
    | succ j =>
      obtain ⟨rfl, h⟩ := ih (List.cons.inj heq).2
      exact ⟨rfl, h⟩

end

end Ascii
