import Mathlib.Logic.Equiv.Basic
import Playground.BitManipulation
import Playground.Lib.Machine

/-!
# Words as sets of positions (`dsa/bit_manipulation.cpp`)

`int` variables at the addresses `A`. A result of `setBit`, `clearBit` or
`toggleBit` is stored in a variable. Every `int` stands for the set of the
positions of its ones.
-/

namespace Playground.WordSets

open Bits BitManipulation

/-- `1 << pos`; a position outside the word has no meaning. -/
def shifted (pos : Int) : Option Word := if 0 ≤ pos ∧ pos < 32 then some (1 <<< pos.toNat) else none

def isPowerOfTwo (n : Word) : Option Bool :=
  if 0 < n.toInt then do
    let m ← checked (n.toInt - 1)
    some (n &&& m = 0)
  else some false

def getBit (n : Word) (pos : Int) : Option Bool :=
  if 0 ≤ pos ∧ pos < 32 then some (n.sshiftRight pos.toNat &&& 1 ≠ 0) else none

def setBit (n : Word) (pos : Int) : Option Word := (shifted pos).map (n ||| ·)

def clearBit (n : Word) (pos : Int) : Option Word := (shifted pos).map (n &&& ~~~·)

def toggleBit (n : Word) (pos : Int) : Option Word := (shifted pos).map (n ^^^ ·)

section
variable {A : Type} [DecidableEq A]

def xorSwap (memory : A → Word) (a b : A) : A → Word :=
  if a = b then memory
  else
    let memory := Function.update memory a (memory a ^^^ memory b)
    let memory := Function.update memory b (memory b ^^^ memory a)
    Function.update memory a (memory a ^^^ memory b)

inductive Call (A : Type)
  | isPowerOfTwo (a : A)
  | getBit (a : A) (pos : Int)
  | setBit (out a : A) (pos : Int)
  | clearBit (out a : A) (pos : Int)
  | toggleBit (out a : A) (pos : Int)
  | xorSwap (a b : A)

inductive Answer
  | done
  | bool (b : Bool)

def store (memory : A → Word) (out : A) (n : Option Word) : Option ((A → Word) × Answer) :=
  n.map fun n => (Function.update memory out n, .done)

def step (memory : A → Word) : Call A → Option ((A → Word) × Answer)
  | .isPowerOfTwo a => (isPowerOfTwo (memory a)).map fun b => (memory, .bool b)
  | .getBit a pos => (getBit (memory a) pos).map fun b => (memory, .bool b)
  | .setBit out a pos => store memory out (setBit (memory a) pos)
  | .clearBit out a pos => store memory out (clearBit (memory a) pos)
  | .toggleBit out a pos => store memory out (toggleBit (memory a) pos)
  | .xorSwap a b => some (xorSwap memory a b, .done)

def words (memory : A → Word) : Machine (A → Word) (Call A) Answer where
  init := memory
  step := step

/-! ## What the calls do to sets -/

def storeSet (sets : A → Finset Nat) (out : A) (pos : Int) (s : Finset Nat) : Option ((A → Finset Nat) × Answer) :=
  if 0 ≤ pos ∧ pos < 32 then some (Function.update sets out s, .done) else none

def setStep (sets : A → Finset Nat) : Call A → Option ((A → Finset Nat) × Answer)
  | .isPowerOfTwo a => some (sets, .bool (decide ((sets a).card = 1 ∧ 31 ∉ sets a)))
  | .getBit a pos => if 0 ≤ pos ∧ pos < 32 then some (sets, .bool (decide (pos.toNat ∈ sets a))) else none
  | .setBit out a pos => storeSet sets out pos (insert pos.toNat (sets a))
  | .clearBit out a pos => storeSet sets out pos ((sets a).erase pos.toNat)
  | .toggleBit out a pos => storeSet sets out pos (symmDiff (sets a) {pos.toNat})
  | .xorSwap a b => some (sets ∘ Equiv.swap a b, .done)

def positions (sets : A → Finset Nat) : Machine (A → Finset Nat) (Call A) Answer where
  init := sets
  step := setStep

end

/-! ## One call -/

theorem shifted_of {pos : Int} (h : 0 ≤ pos ∧ pos < 32) : shifted pos = some (BitVec.twoPow 32 pos.toNat) := by
  rw [shifted, if_pos h, BitVec.twoPow_eq]
  rfl

theorem shifted_none {pos : Int} (h : ¬ (0 ≤ pos ∧ pos < 32)) : shifted pos = none := if_neg h

theorem getBit_of (n : Word) {pos : Int} (h : 0 ≤ pos ∧ pos < 32) :
    getBit n pos = some (decide (pos.toNat ∈ ones n)) := by
  have hlt : pos.toNat < 32 := by omega
  rw [getBit, if_pos h, Option.some_inj]
  refine decide_eq_decide.mpr ?_
  rw [and_ne_zero_iff, mem_ones]
  constructor
  · rintro ⟨i, hi, hn⟩
    have hone : i ∈ ({0} : Finset Nat) := by
      rw [← show ones (1 : Word) = {0} by decide]
      exact hi
    rw [Finset.mem_singleton.mp hone, mem_ones, BitVec.getLsbD_sshiftRight] at hn
    simpa [hlt] using hn
  · intro hn
    refine ⟨0, by decide, ?_⟩
    rw [mem_ones, BitVec.getLsbD_sshiftRight]
    simpa [hlt] using hn

theorem toInt_pos_iff (n : Word) : 0 < n.toInt ↔ n ≠ 0 ∧ 31 ∉ ones n := by
  rw [mem_ones, ← BitVec.msb_eq_getLsbD_last (x := n), Bool.not_eq_true]
  constructor
  · intro h
    refine ⟨?_, ?_⟩
    · rintro rfl
      exact absurd h (by decide)
    · rw [BitVec.msb_eq_toInt, decide_eq_false_iff_not]
      omega
  · rintro ⟨h0, h⟩
    have hle := BitVec.toInt_nonneg_of_msb_false h
    have hne : n.toInt ≠ 0 := fun hz => h0 (BitVec.eq_of_toInt_eq hz)
    omega

/-- The subtraction never overflows: it is only reached for a positive `n`. -/
theorem isPowerOfTwo_eq (n : Word) : isPowerOfTwo n = some (decide ((ones n).card = 1 ∧ 31 ∉ ones n)) := by
  rw [isPowerOfTwo]
  split
  · rename_i hpos
    obtain ⟨h0, h31⟩ := (toInt_pos_iff n).mp hpos
    have hmin : n ≠ BitVec.intMin 32 := by
      rintro rfl
      exact absurd hpos (by decide)
    rw [checked_sub_one, if_neg hmin]
    refine congrArg some (decide_eq_decide.mpr ?_)
    rw [Finset.card_eq_one, and_iff_left h31]
    exact and_sub_one_eq_zero h0
  · rename_i hpos
    have hnot : ¬ ((ones n).card = 1 ∧ 31 ∉ ones n) := by
      rintro ⟨hcard, h31⟩
      refine hpos ((toInt_pos_iff n).mpr ⟨?_, h31⟩)
      rintro rfl
      simp at hcard
    rw [decide_eq_false hnot]

section
variable {A : Type} [DecidableEq A]

/-- Three exclusive ors swap the values of two variables, and leave one variable alone. -/
theorem xorSwap_eq (memory : A → Word) (a b : A) : xorSwap memory a b = memory ∘ Equiv.swap a b := by
  rw [xorSwap]
  split
  · rename_i hab
    rw [hab, Equiv.swap_self]
    rfl
  · rename_i hab
    have hb : memory b ^^^ (memory a ^^^ memory b) = memory a := by
      rw [BitVec.xor_comm (memory a), ← BitVec.xor_assoc, BitVec.xor_self, BitVec.zero_xor]
    have ha : memory a ^^^ memory b ^^^ memory a = memory b := by
      rw [BitVec.xor_comm (memory a), BitVec.xor_assoc, BitVec.xor_self, BitVec.xor_zero]
    funext c
    by_cases hca : c = a
    · subst hca
      simp [Function.update_of_ne hab, Function.update_of_ne (Ne.symm hab), hb, ha]
    · by_cases hcb : c = b
      · subst hcb
        simp [Function.update_of_ne hca, hb]
      · simp [hca, hcb, Equiv.swap_apply_of_ne_of_ne]

theorem ones_update (memory : A → Word) (out : A) (n : Word) :
    (fun a => ones (Function.update memory out n a)) = Function.update (fun a => ones (memory a)) out (ones n) := by
  funext a
  by_cases ha : a = out
  · subst ha
    simp
  · simp [ha]

/-- A variable gets the word of a set, or there is no position to work at. -/
theorem store_eq (memory : A → Word) (out : A) (f : Word → Word) {pos : Int} {s : Finset Nat}
    (h : pos.toNat < 32 → ones (f (BitVec.twoPow 32 pos.toNat)) = s) :
    storeSet (fun a => ones (memory a)) out pos s =
      (store memory out ((shifted pos).map f)).map fun p => (fun a => ones (p.1 a), p.2) := by
  by_cases hpos : 0 ≤ pos ∧ pos < 32
  · rw [storeSet, if_pos hpos, shifted_of hpos, ← h (by omega)]
    simp only [store, Option.map_some, ones_update]
  · rw [storeSet, if_neg hpos, shifted_none hpos]
    rfl

theorem words_mapsTo (memory : A → Word) :
    (words memory).MapsTo (positions fun a => ones (memory a)) (fun m a => ones (m a)) where
  init := rfl
  step m c := by
    show setStep (fun a => ones (m a)) c = (step m c).map _
    cases c with
    | isPowerOfTwo a =>
      rw [setStep, step, isPowerOfTwo_eq]
      rfl
    | getBit a pos =>
      rw [setStep, step]
      split
      · rename_i h
        rw [getBit_of _ h]
        rfl
      · rename_i h
        rw [getBit, if_neg h]
        rfl
    | setBit out a pos => exact store_eq m out (m a ||| ·) ones_or_twoPow
    | clearBit out a pos => exact store_eq m out (m a &&& ~~~·) ones_and_not_twoPow
    | toggleBit out a pos => exact store_eq m out (m a ^^^ ·) ones_xor_twoPow
    | xorSwap a b =>
      rw [setStep, step, xorSwap_eq]
      rfl

/-- Words are sets: every run of calls does to the words what it does to the sets of their ones, with the same
answers, and has no meaning where the other has none. -/
theorem words_run (memory : A → Word) (calls : List (Call A)) :
    (positions fun a => ones (memory a)).exec calls = ((words memory).exec calls).map (fun m a => ones (m a)) ∧
      (positions fun a => ones (memory a)).traceFrom (fun a => ones (memory a)) calls =
        (words memory).traceFrom memory calls :=
  ⟨(words_mapsTo memory).exec calls, (words_mapsTo memory).trace calls⟩

end

end Playground.WordSets
