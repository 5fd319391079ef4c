import Playground.Lib.Bits
import Playground.Lib.CInt
import Playground.Lib.Loop
import Playground.Lib.OddFold

/-!
# Bit tricks (`dsa/bit_manipulation.cpp`)

An `int` is its 32 bits. `signed` gives the bits of a signed result: `wrap`
for two's complement, `checked` where an overflow has no meaning.
-/

namespace Playground.BitManipulation

open Bits OddFold

abbrev Word := BitVec 32

def wrap (x : Int) : Option Word := some (BitVec.ofInt 32 x)

def checked (x : Int) : Option Word := (CInt.fit x).map (BitVec.ofInt 32)

section
variable (signed : Int → Option Word)

/-- One round of `countSetBits`: `n` and `count`. -/
def clearLowest (s : Word × Nat) : Option (Word × Nat) := do
  let m ← signed (s.1.toInt - 1)
  some (s.1 &&& m, s.2 + 1)

def countSetBits (rounds : Nat) (n : Word) : Option Nat :=
  (Loop.run (fun s => if s.1 ≠ 0 then .ofOption (clearLowest signed s) else .exit) rounds (n, 0)).map Prod.snd

def singleNumber (nums : List Word) : Word := nums.foldl (· ^^^ ·) 0

def findTwoSingles (nums : List Word) : Option (Word × Word) := do
  let xorAll := nums.foldl (· ^^^ ·) 0
  let minus ← signed (-xorAll.toInt)
  let diffBit := xorAll &&& minus
  some (nums.foldl (fun p n => if n &&& diffBit ≠ 0 then (p.1 ^^^ n, p.2) else (p.1, p.2 ^^^ n)) (0, 0))

end

/-! ## Single numbers -/

section
variable {nums : List Word} {a b : Word}

theorem singleNumber_eq (h : odds nums = {a}) : singleNumber nums = a :=
  foldl_singleton (fun _ => BitVec.xor_zero) (fun _ => BitVec.xor_self) h

/-- The two groups of `findTwoSingles`, one after the other. -/
theorem foldl_groups (p : Word → Prop) [DecidablePred p] (nums : List Word) (x y : Word) :
    nums.foldl (fun q n => if p n then (q.1 ^^^ n, q.2) else (q.1, q.2 ^^^ n)) (x, y) =
      ((nums.filter fun n => p n).foldl (· ^^^ ·) x, (nums.filter fun n => ¬ p n).foldl (· ^^^ ·) y) := by
  induction nums generalizing x y with
  | nil => rfl
  | cons n nums ih =>
    rw [List.foldl_cons]
    by_cases hn : p n
    · rw [if_pos hn, ih, List.filter_cons_of_pos (by simpa using hn), List.filter_cons_of_neg (by simpa using hn),
        List.foldl_cons]
    · rw [if_neg hn, ih, List.filter_cons_of_neg (by simpa using hn), List.filter_cons_of_pos (by simpa using hn),
        List.foldl_cons]

/-- A bit in which the two differ puts them into different groups. -/
theorem groups_eq {p : Word → Prop} [DecidablePred p] (h : odds nums = {a, b}) (ha : p a) (hb : ¬ p b) :
    nums.foldl (fun q n => if p n then (q.1 ^^^ n, q.2) else (q.1, q.2 ^^^ n)) (0, 0) = (a, b) := by
  have hab : odds (nums.filter fun n => p n) = {a} := by
    rw [odds_filter, h, Finset.filter_insert, Finset.filter_singleton]
    simp [ha, hb]
  have hba : odds (nums.filter fun n => ¬ p n) = {b} := by
    rw [odds_filter, h, Finset.filter_insert, Finset.filter_singleton]
    simp [ha, hb]
  rw [foldl_groups]
  exact Prod.ext (singleNumber_eq hab) (singleNumber_eq hba)

theorem xorAll_eq (hab : a ≠ b) (h : odds nums = {a, b}) : nums.foldl (· ^^^ ·) 0 = a ^^^ b :=
  foldl_pair (fun _ => BitVec.xor_zero) (fun _ => BitVec.xor_self) hab h

theorem findTwoSingles_eq (hab : a ≠ b) (h : odds nums = {a, b}) :
    findTwoSingles wrap nums = some (a, b) ∨ findTwoSingles wrap nums = some (b, a) := by
  have hne : a ^^^ b ≠ 0 := fun h0 => hab (BitVec.xor_eq_zero_iff.mp h0)
  have hones := ones_and_neg hne
  have hdiff : a.getLsbD (a ^^^ b).ctz.toNat ≠ b.getLsbD (a ^^^ b).ctz.toNat := by
    have := mem_ones.mp (ctz_mem_ones hne)
    rw [BitVec.getLsbD_xor] at this
    simpa using this
  have hp : ∀ n : Word, n &&& ((a ^^^ b) &&& -(a ^^^ b)) ≠ 0 ↔ n.getLsbD (a ^^^ b).ctz.toNat = true := by
    intro n
    rw [and_ne_zero_iff, hones]
    simp [mem_ones]
  have hrun : findTwoSingles wrap nums = some (nums.foldl (fun p n =>
      if n &&& ((a ^^^ b) &&& -(a ^^^ b)) ≠ 0 then (p.1 ^^^ n, p.2) else (p.1, p.2 ^^^ n)) (0, 0)) := by
    simp only [findTwoSingles, xorAll_eq hab h, wrap, BitVec.ofInt_neg, BitVec.ofInt_toInt]
    rfl
  rw [hrun]
  by_cases ha : a.getLsbD (a ^^^ b).ctz.toNat = true
  · exact .inl (congrArg some (groups_eq h ((hp a).mpr ha) fun hb => hdiff (ha.trans ((hp b).mp hb).symm)))
  · have hb : b.getLsbD (a ^^^ b).ctz.toNat = true := by
      cases hb : b.getLsbD (a ^^^ b).ctz.toNat
      · exact absurd ((Bool.eq_false_iff.mpr ha).trans hb.symm) hdiff
      · rfl
    rw [Finset.pair_comm] at h
    exact .inr (congrArg some (groups_eq h ((hp b).mpr hb) fun ha' => ha ((hp a).mp ha')))

end

/-- What occurs an odd number of times is found. -/
theorem singles_found :
    (∀ nums a b, a ≠ b → (∀ v, Odd (nums.count v) ↔ v = a ∨ v = b) →
      findTwoSingles wrap nums = some (a, b) ∨ findTwoSingles wrap nums = some (b, a)) ∧
    ∀ nums a, (∀ v, Odd (nums.count v) ↔ v = a) → singleNumber nums = a := by
  constructor
  · intro nums a b hab h
    refine findTwoSingles_eq hab (Finset.ext fun v => ?_)
    rw [mem_odds, h, Finset.mem_insert, Finset.mem_singleton]
  · intro nums a h
    refine singleNumber_eq (Finset.ext fun v => ?_)
    rw [mem_odds, h, Finset.mem_singleton]

theorem singles_found_example : (findTwoSingles wrap [1, 2, 3, 1, 2, 5] = some (3, 5) ∨
    findTwoSingles wrap [1, 2, 3, 1, 2, 5] = some (5, 3)) ∧ singleNumber [4, 1, 2, 1, 2] = 4 := by
  refine ⟨singles_found.1 _ 3 5 (by decide) fun v => ?_, singles_found.2 _ 4 fun v => ?_⟩
  · rw [← mem_odds, show odds ([1, 2, 3, 1, 2, 5] : List Word) = {3, 5} by decide, Finset.mem_insert,
      Finset.mem_singleton]
  · rw [← mem_odds, show odds ([4, 1, 2, 1, 2] : List Word) = {4} by decide, Finset.mem_singleton]

/-! ## Overflow -/

section
variable {n : Word} {nums : List Word}

theorem toInt_eq_iff (n : Word) : n.toInt = -2 ^ 31 ↔ n = BitVec.intMin 32 := by
  rw [← BitVec.toInt_inj, BitVec.toInt_intMin_of_pos (by decide)]

theorem checked_neg (n : Word) : checked (-n.toInt) = if n = BitVec.intMin 32 then none else some (-n) := by
  have hle := BitVec.le_toInt n
  have hlt := BitVec.toInt_lt (x := n)
  split
  · rename_i h
    rw [checked, (toInt_eq_iff n).mpr h]
    rfl
  · rename_i h
    rw [checked, CInt.fit_of (by omega) (by rw [← toInt_eq_iff] at h; omega), Option.map_some, BitVec.ofInt_neg,
      BitVec.ofInt_toInt]

theorem checked_sub_one (n : Word) :
    checked (n.toInt - 1) = if n = BitVec.intMin 32 then none else some (n - 1) := by
  have hle := BitVec.le_toInt n
  have hlt := BitVec.toInt_lt (x := n)
  split
  · rename_i h
    rw [checked, (toInt_eq_iff n).mpr h]
    rfl
  · rename_i h
    rw [checked, CInt.fit_of (by rw [← toInt_eq_iff] at h; omega) (by omega), Option.map_some,
      Int.sub_eq_add_neg, BitVec.ofInt_add, BitVec.ofInt_toInt, BitVec.sub_eq_add_neg,
      show BitVec.ofInt 32 (-1) = -1 by decide]

theorem clearLowest_eq (s : Word × Nat) : clearLowest checked s =
    if s.1 = BitVec.intMin 32 then none else some (s.1 &&& (s.1 - 1), s.2 + 1) := by
  rw [clearLowest, checked_sub_one]
  split <;> rfl

/-- The bits that were cleared are counted. -/
def Counted (n : Word) (s : Word × Nat) : Prop := s.1.msb = false ∧ s.2 + (ones s.1).card = (ones n).card

theorem clearLowest_counted {s : Word × Nat} (hs : Counted n s) (h0 : s.1 ≠ 0) :
    ∃ s', clearLowest checked s = some s' ∧ Counted n s' ∧ (ones s'.1).card < (ones s.1).card := by
  have hcard := card_ones_and_sub_one h0
  refine ⟨(s.1 &&& (s.1 - 1), s.2 + 1), ?_, ⟨?_, ?_⟩, Nat.lt_of_succ_le hcard.le⟩
  · rw [clearLowest_eq, if_neg (BitVec.ne_intMin_of_msb_eq_false (by decide) hs.1)]
  · rw [BitVec.msb_and, hs.1, Bool.false_and]
  · rw [← hs.2, ← hcard, Nat.add_right_comm, Nat.add_assoc]

theorem countSetBits_eq (h : n.msb = false) {rounds : Nat} (hr : (ones n).card < rounds) :
    countSetBits checked rounds n = some (ones n).card := by
  obtain ⟨s, hrun, ⟨-, hcount⟩, hexit⟩ := Loop.run_while (c := fun s : Word × Nat => s.1 ≠ 0)
    (fun s => (ones s.1).card) (fun s => clearLowest_counted) (s := (n, 0)) ⟨h, Nat.zero_add _⟩ hr
  rw [countSetBits, hrun, Option.map_some, ← hcount]
  simp [Decidable.not_not.mp hexit]

/-- A negative number comes down to the smallest one. -/
theorem countSetBits_none (h : n.msb = true) (rounds : Nat) : countSetBits checked rounds n = none := by
  rw [countSetBits, Option.map_eq_none_iff]
  cases hrun : Loop.run _ rounds (n, 0) with
  | none => rfl
  | some s =>
    obtain ⟨hs, hexit⟩ := Loop.run_inv (I := fun s : Word × Nat => s.1.msb = true) (fun s s' hi hb => by
      split at hb
      · rw [Loop.Outcome.ofOption_eq_next, clearLowest_eq] at hb
        split at hb
        · cases hb
        · rename_i hne
          obtain rfl := Option.some.inj hb
          exact msb_and_sub_one hi hne
      · cases hb) hrun h
    split at hexit
    · exact absurd hexit (Loop.Outcome.ofOption_ne_exit _)
    · rename_i h0
      rw [Decidable.not_not.mp h0] at hs
      cases hs

theorem findTwoSingles_isSome_iff :
    (findTwoSingles checked nums).isSome ↔ nums.foldl (· ^^^ ·) 0 ≠ BitVec.intMin 32 := by
  simp only [findTwoSingles, checked_neg]
  split
  · rename_i h
    exact iff_of_false nofun fun hne => hne h
  · rename_i h
    exact iff_of_true rfl h

theorem xorAll_eq_intMin_iff : nums.foldl (· ^^^ ·) 0 = BitVec.intMin 32 ↔
    Odd (nums.countP fun n => n.toInt < 0) ∧ ∀ i < 31, Even (nums.countP fun n => n.getLsbD i) := by
  have hsign : nums.countP (fun n => n.toInt < 0) = nums.countP fun n => n.getLsbD 31 := by
    congr 1
    funext n
    rw [← BitVec.msb_eq_toInt, BitVec.msb_eq_getLsbD_last]
  have hbit : ∀ i, (nums.foldl (· ^^^ ·) (0 : Word)).getLsbD i = true ↔ Odd (nums.countP fun n => n.getLsbD i) := by
    intro i
    rw [getLsbD_foldl_xor, ← Nat.not_even_iff_odd]
    simp
  rw [hsign, ← hbit]
  constructor
  · intro h
    refine ⟨by rw [h]; rfl, fun i hi => ?_⟩
    rw [← Nat.not_odd_iff_even, ← hbit, h, BitVec.getLsbD_intMin, decide_eq_true_eq]
    omega
  · rintro ⟨h31, hlow⟩
    refine BitVec.eq_of_getLsbD_eq fun i hi => ?_
    rw [BitVec.getLsbD_intMin, Bool.eq_iff_iff, decide_eq_true_eq]
    rcases Nat.lt_or_ge i 31 with hi' | hi'
    · rw [hbit, ← Nat.not_even_iff_odd]
      exact iff_of_false (not_not_intro (hlow i hi')) (by omega)
    · rw [show i = 31 by omega]
      exact iff_of_true h31 rfl

end

theorem no_overflow_iff (nums : List Word) (n : Word) :
    ((findTwoSingles checked nums).isSome ↔
      ¬ (Odd (nums.countP fun n => n.toInt < 0) ∧ ∀ i < 31, Even (nums.countP fun n => n.getLsbD i))) ∧
    ((∃ rounds, countSetBits checked rounds n = some (ones n).card) ↔ 0 ≤ n.toInt) := by
  constructor
  · rw [findTwoSingles_isSome_iff, ne_eq, xorAll_eq_intMin_iff]
  · rw [← Int.not_lt, ← decide_eq_true_eq (p := n.toInt < 0), ← BitVec.msb_eq_toInt]
    constructor
    · rintro ⟨rounds, h⟩ hneg
      rw [countSetBits_none hneg] at h
      cases h
    · exact fun h => ⟨_, countSetBits_eq (Bool.eq_false_iff.mpr h) (Nat.lt_succ_self _)⟩

/-- `INT_MIN` by itself, and `-1`. -/
theorem overflow_intMin :
    findTwoSingles checked [BitVec.intMin 32] = none ∧ ∀ rounds, countSetBits checked rounds (-1) = none :=
  ⟨rfl, countSetBits_none rfl⟩

end Playground.BitManipulation
