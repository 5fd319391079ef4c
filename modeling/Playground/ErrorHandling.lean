import Mathlib.Data.List.TakeWhile
import Playground.Lib.Ascii
import Playground.Lib.CInt

/-!
# A parsing pipeline (`modern_cpp/practical/error_handling.cpp`)

A `Result` is a value or an error, and a text is its bytes. `fromChars` is the
`std::from_chars` of an `int` in base 10: a minus sign but no plus sign, no
blanks in front, and as many digits as there are.
-/

namespace Playground.ErrorHandling

open Ascii

inductive Result (T E : Type)
  | success (value : T)
  | error (err : E)
  deriving DecidableEq

namespace Result

variable {T U E : Type}

def andThen (r : Result T E) (f : T → Result U E) : Result U E :=
  match r with
  | .success v => f v
  | .error e => .error e

theorem andThen_eq_success {r : Result T E} {f : T → Result U E} {u : U} :
    r.andThen f = .success u ↔ ∃ v, r = .success v ∧ f v = .success u := by
  cases r <;> simp [andThen]

theorem andThen_eq_error {r : Result T E} {f : T → Result U E} {e : E} :
    r.andThen f = .error e ↔ r = .error e ∨ ∃ v, r = .success v ∧ f v = .error e := by
  cases r <;> simp [andThen]

end Result

/-! ## Reading -/

inductive Errc
  | none
  | invalidArgument
  | resultOutOfRange
  deriving DecidableEq

/-- What is left of the text, the error code, and the variable that was to be set. -/
structure FromChars where
  rest : Bytes
  ec : Errc
  result : Int

/-- The numeral in front, however large. -/
def matched : Bytes → Option (Int × Bytes)
  | [] => none
  | b :: t =>
    if b = byte '-' then (readNat t).map fun p => (-(p.1 : Int), p.2)
    else (readNat (b :: t)).map fun p => ((p.1 : Int), p.2)

def fromChars (s : Bytes) (result : Int) : FromChars :=
  match matched s with
  | none => ⟨s, .invalidArgument, result⟩
  | some (x, rest) =>
    match CInt.fit x with
    | none => ⟨rest, .resultOutOfRange, result⟩
    | some x => ⟨rest, .none, x⟩

def notInteger (sv : Bytes) : Bytes := bytes "Failed to parse '" ++ sv ++ bytes "' as integer"

def parseInt (sv : Bytes) : Result Int Bytes :=
  let r := fromChars sv 0
  if r.ec = .none ∧ r.rest = [] then .success r.result else .error (notInteger sv)

def notPositive (value : Int) : Bytes := bytes "Value must be positive, got: " ++ ofInt value

def validatePositive (value : Int) : Result Int Bytes :=
  if value > 0 then .success value else .error (notPositive value)

def outOfRange (value min max : Int) : Bytes :=
  bytes "Value " ++ ofInt value ++ bytes " out of range [" ++ ofInt min ++ bytes ", " ++ ofInt max ++ bytes "]"

def validateRange (value min max : Int) : Result Int Bytes :=
  if value ≥ min ∧ value ≤ max then .success value else .error (outOfRange value min max)

/-- The stages of `main`, for any range. -/
def pipeline (min max : Int) (sv : Bytes) : Result Int Bytes :=
  ((parseInt sv).andThen validatePositive).andThen fun v => validateRange v min max

/-! ## What is read -/

/-- A minus sign or none, zeros, and the decimal numeral. -/
def Spells (sv : Bytes) (v : Int) : Prop :=
  ∃ k, 0 ≤ v ∧ sv = List.replicate k (byte '0') ++ decimal v.natAbs ∨
    v ≤ 0 ∧ sv = byte '-' :: (List.replicate k (byte '0') ++ decimal v.natAbs)

def InInt (v : Int) : Prop := -2 ^ 31 ≤ v ∧ v < 2 ^ 31

theorem isDigit_of_mem_zeros {k n : Nat} {b : UInt8} (h : b ∈ List.replicate k (byte '0') ++ decimal n) :
    isDigit b = true := by
  rcases List.mem_append.mp h with h | h
  · rw [(List.mem_replicate.mp h).2]
    rfl
  · exact isDigit_of_mem_decimal h

/-- The whole text is a numeral. -/
theorem readNat_eq_nil_iff {s : Bytes} {n : Nat} :
    readNat s = some (n, []) ↔ ∃ k, s = List.replicate k (byte '0') ++ decimal n := by
  constructor
  · intro h
    rw [readNat] at h
    split at h
    · cases h
    · rename_i hne
      obtain ⟨hn, hrest⟩ := Prod.mk.inj (Option.some_inj.mp h)
      have hall : s.takeWhile isDigit = s := by
        rw [List.dropWhile_eq_nil_iff] at hrest
        exact List.takeWhile_eq_self_iff.mpr hrest
      rw [hall] at hne hn
      obtain ⟨k, hk⟩ := eq_zeros_append_decimal hne (List.takeWhile_eq_self_iff.mp hall)
      exact ⟨k, hn ▸ hk⟩
  · rintro ⟨k, rfl⟩
    have hdig : ∀ b ∈ List.replicate k (byte '0') ++ decimal n, isDigit b = true := fun b => isDigit_of_mem_zeros
    rw [readNat, List.takeWhile_eq_self_iff.mpr hdig, List.dropWhile_eq_nil_iff.mpr hdig,
      if_neg (by simp [decimal_ne_nil]), ofDigits_zeros, ofDigits_decimal]

/-- A numeral does not begin with a sign. -/
theorem zeros_ne_minus {k n : Nat} {t : Bytes} : List.replicate k (byte '0') ++ decimal n ≠ byte '-' :: t := by
  intro h
  have hminus : isDigit (byte '-') = true := isDigit_of_mem_zeros (h ▸ List.mem_cons_self)
  exact absurd hminus (by decide)

theorem matched_eq_iff {sv : Bytes} {v : Int} : matched sv = some (v, []) ↔ Spells sv v := by
  have hneg : ∀ t, (readNat t).map (fun p => (-(p.1 : Int), p.2)) = some (v, []) ↔
      v ≤ 0 ∧ readNat t = some (v.natAbs, []) := by
    intro t
    rw [Option.map_eq_some_iff]
    constructor
    · rintro ⟨⟨n, rest⟩, hread, heq⟩
      obtain ⟨rfl, rfl⟩ := Prod.mk.inj heq
      exact ⟨by omega, by simpa using hread⟩
    · rintro ⟨hv, hread⟩
      exact ⟨_, hread, Prod.ext (by show -(v.natAbs : Int) = v; omega) rfl⟩
  have hpos : ∀ t, (readNat t).map (fun p => ((p.1 : Int), p.2)) = some (v, []) ↔
      0 ≤ v ∧ readNat t = some (v.natAbs, []) := by
    intro t
    rw [Option.map_eq_some_iff]
    constructor
    · rintro ⟨⟨n, rest⟩, hread, heq⟩
      obtain ⟨rfl, rfl⟩ := Prod.mk.inj heq
      exact ⟨by omega, by simpa using hread⟩
    · rintro ⟨hv, hread⟩
      exact ⟨_, hread, Prod.ext (by show (v.natAbs : Int) = v; omega) rfl⟩
  cases sv with
  | nil =>
    refine iff_of_false (fun h => by cases h) ?_
    rintro ⟨k, ⟨_, h⟩ | ⟨_, h⟩⟩
    · exact decimal_ne_nil _ (List.append_eq_nil_iff.mp h.symm).2
    · cases h
  | cons b t =>
    rw [matched]
    split
    · rename_i hb
      subst hb
      rw [hneg, readNat_eq_nil_iff]
      constructor
      · rintro ⟨hv, k, rfl⟩
        exact ⟨k, .inr ⟨hv, rfl⟩⟩
      · rintro ⟨k, ⟨_, h⟩ | ⟨hv, h⟩⟩
        · exact absurd h.symm zeros_ne_minus
        · exact ⟨hv, k, (List.cons.inj h).2⟩
    · rename_i hb
      rw [hpos, readNat_eq_nil_iff]
      constructor
      · rintro ⟨hv, k, h⟩
        exact ⟨k, .inl ⟨hv, h⟩⟩
      · rintro ⟨k, ⟨hv, h⟩ | ⟨_, h⟩⟩
        · exact ⟨hv, k, h⟩
        · exact absurd (List.cons.inj h).1 hb

theorem fromChars_iff {sv : Bytes} {v : Int} :
    (fromChars sv 0).ec = .none ∧ (fromChars sv 0).rest = [] ∧ (fromChars sv 0).result = v ↔
    InInt v ∧ Spells sv v := by
  rw [← matched_eq_iff]
  cases hm : matched sv with
  | none => simp [fromChars, hm]
  | some p =>
    obtain ⟨x, rest⟩ := p
    by_cases hx : InInt x
    · have hfit : CInt.fit x = some x := CInt.fit_of hx.1 hx.2
      simp only [fromChars, hm, hfit, true_and, Option.some_inj, Prod.mk.injEq]
      constructor
      · rintro ⟨rfl, rfl⟩
        exact ⟨hx, rfl, rfl⟩
      · rintro ⟨_, rfl, rfl⟩
        exact ⟨rfl, rfl⟩
    · have hfit : CInt.fit x = none := if_neg hx
      simp only [fromChars, hm, hfit, reduceCtorEq, false_and, Option.some_inj, Prod.mk.injEq, false_iff, not_and]
      rintro hv rfl
      exact absurd hv hx

theorem parseInt_success {sv : Bytes} {v : Int} : parseInt sv = .success v ↔ InInt v ∧ Spells sv v := by
  rw [← fromChars_iff, parseInt]
  split
  · rename_i h
    simp [h.1, h.2]
  · rename_i h
    refine iff_of_false (fun heq => by cases heq) fun hr => h ⟨hr.1, hr.2.1⟩

theorem parseInt_error {sv e : Bytes} :
    parseInt sv = .error e ↔ (¬ ∃ v, InInt v ∧ Spells sv v) ∧ e = notInteger sv := by
  cases h : parseInt sv with
  | success v =>
    refine iff_of_false (fun heq => by cases heq) fun hr => hr.1 ⟨v, parseInt_success.mp h⟩
  | error e' =>
    have hnone : ¬ ∃ v, InInt v ∧ Spells sv v := by
      rintro ⟨v, hv⟩
      rw [parseInt_success.mpr hv] at h
      cases h
    have he : e' = notInteger sv := by
      rw [parseInt] at h
      split at h
      · cases h
      · exact (Result.error.inj h).symm
    rw [he, Result.error.injEq]
    exact ⟨fun heq => ⟨hnone, heq.symm⟩, fun heq => heq.2.symm⟩

theorem spells_ofInt (v : Int) : Spells (ofInt v) v := by
  refine ⟨0, ?_⟩
  rw [ofInt]
  split
  · exact .inr ⟨by omega, rfl⟩
  · exact .inl ⟨by omega, rfl⟩

/-- An `int` is read from the texts that spell it and from no others, and one of these is what `to_string` makes of
it. Everything else is an error that quotes the text. -/
theorem parseInt_iff (sv : Bytes) :
    (∀ v, parseInt sv = .success v ↔ InInt v ∧ Spells sv v) ∧
      (∀ e, parseInt sv = .error e ↔ (¬ ∃ v, InInt v ∧ Spells sv v) ∧ e = notInteger sv) ∧
      ∀ v, InInt v → parseInt (ofInt v) = .success v :=
  ⟨fun _ => parseInt_success, fun _ => parseInt_error, fun v hv => parseInt_success.mpr ⟨hv, spells_ofInt v⟩⟩

/-! ## The pipeline -/

section
variable {min max v : Int} {sv e : Bytes}

theorem pipeline_success :
    pipeline min max sv = .success v ↔ InInt v ∧ Spells sv v ∧ 0 < v ∧ min ≤ v ∧ v ≤ max := by
  simp only [pipeline, Result.andThen_eq_success, parseInt_success, validatePositive, validateRange]
  constructor
  · rintro ⟨w, ⟨x, ⟨hx, hsv⟩, hpos⟩, hrange⟩
    split at hpos
    · split at hrange
      · rename_i h h'
        cases hpos
        cases hrange
        exact ⟨hx, hsv, h, h'⟩
      · cases hrange
    · cases hpos
  · rintro ⟨hv, hsv, hpos, hrange⟩
    exact ⟨v, ⟨v, ⟨hv, hsv⟩, if_pos hpos⟩, if_pos hrange⟩

/-- What the error says depends on the first stage that fails. -/
theorem pipeline_error : pipeline min max sv = .error e ↔
    (¬ ∃ v, InInt v ∧ Spells sv v) ∧ e = notInteger sv ∨
      ∃ v, (InInt v ∧ Spells sv v) ∧
        (v ≤ 0 ∧ e = notPositive v ∨ 0 < v ∧ ¬ (min ≤ v ∧ v ≤ max) ∧ e = outOfRange v min max) := by
  simp only [pipeline, Result.andThen_eq_error, Result.andThen_eq_success, parseInt_error, parseInt_success,
    validatePositive, validateRange]
  constructor
  · rintro ((h | ⟨v, hv, hpos⟩) | ⟨w, ⟨v, hv, hpos⟩, hrange⟩)
    · exact .inl h
    · split at hpos
      · cases hpos
      · cases hpos
        exact .inr ⟨v, hv, .inl ⟨by omega, rfl⟩⟩
    · split at hpos
      · cases hpos
        split at hrange
        · cases hrange
        · rename_i h h'
          cases hrange
          exact .inr ⟨_, hv, .inr ⟨h, h', rfl⟩⟩
      · cases hpos
  · rintro (h | ⟨v, hv, ⟨hle, rfl⟩ | ⟨hpos, hrange, rfl⟩⟩)
    · exact .inl (.inl h)
    · exact .inl (.inr ⟨v, hv, if_neg (by omega)⟩)
    · exact .inr ⟨v, ⟨v, hv, if_pos hpos⟩, if_neg hrange⟩

/-! ## What an error says -/

/-- What a text that cannot be read gets begins with another letter than the rest. -/
theorem notInteger_ne {f : Bytes} (h : f.head? = some (byte 'V')) : notInteger sv ≠ f := by
  rintro rfl
  cases h

theorem notPositive_ne (x y : Int) : notPositive x ≠ outOfRange y min max := by
  intro h
  obtain ⟨b, t, hb, hkind⟩ := ofInt_eq_cons y
  have hvalue : bytes "Value " ++ (bytes "must be positive, got: " ++ ofInt x) =
      bytes "Value " ++
        (ofInt y ++ (bytes " out of range [" ++ ofInt min ++ bytes ", " ++ ofInt max ++ bytes "]")) := by
    simpa [notPositive, outOfRange, bytes] using h
  rw [List.append_cancel_left_eq, hb] at hvalue
  have hm : byte 'm' = b := (List.cons.inj hvalue).1
  subst hm
  rcases hkind with hkind | hkind
  · exact absurd hkind (by decide)
  · exact absurd hkind (by decide)

theorem notInteger_inj {sv' : Bytes} (h : notInteger sv = notInteger sv') : sv = sv' := by
  simpa [notInteger] using h

theorem notPositive_inj {x y : Int} (h : notPositive x = notPositive y) : x = y :=
  ofInt_inj (by simpa [notPositive] using h)

theorem outOfRange_inj {x y : Int} (h : outOfRange x min max = outOfRange y min max) : x = y :=
  ofInt_inj (by simpa [outOfRange] using h)

/-- The pipeline accepts the texts of the positive numbers within the range; and texts with the same error are the
same, or spell the same number. -/
theorem pipeline_iff (min max : Int) (sv : Bytes) :
    (∀ v, pipeline min max sv = .success v ↔ InInt v ∧ Spells sv v ∧ 0 < v ∧ min ≤ v ∧ v ≤ max) ∧
      (∀ e, pipeline min max sv = .error e ↔ (¬ ∃ v, InInt v ∧ Spells sv v) ∧ e = notInteger sv ∨
        ∃ v, (InInt v ∧ Spells sv v) ∧
          (v ≤ 0 ∧ e = notPositive v ∨ 0 < v ∧ ¬ (min ≤ v ∧ v ≤ max) ∧ e = outOfRange v min max)) ∧
      ∀ sv' e, pipeline min max sv = .error e → pipeline min max sv' = .error e →
        sv = sv' ∨ ∃ v, Spells sv v ∧ Spells sv' v := by
  refine ⟨fun _ => pipeline_success, fun _ => pipeline_error, fun sv' e h h' => ?_⟩
  rcases pipeline_error.mp h with ⟨_, rfl⟩ | ⟨v, ⟨_, hsv⟩, ⟨_, rfl⟩ | ⟨_, _, rfl⟩⟩
  · rcases pipeline_error.mp h' with ⟨_, heq⟩ | ⟨w, _, ⟨_, heq⟩ | ⟨_, _, heq⟩⟩
    · exact .inl (notInteger_inj heq)
    · exact absurd heq (notInteger_ne rfl)
    · exact absurd heq (notInteger_ne rfl)
  · rcases pipeline_error.mp h' with ⟨_, heq⟩ | ⟨w, ⟨_, hsv'⟩, ⟨_, heq⟩ | ⟨_, _, heq⟩⟩
    · exact absurd heq.symm (notInteger_ne rfl)
    · exact .inr ⟨v, hsv, notPositive_inj heq ▸ hsv'⟩
    · exact absurd heq (notPositive_ne v w)
  · rcases pipeline_error.mp h' with ⟨_, heq⟩ | ⟨w, ⟨_, hsv'⟩, ⟨_, heq⟩ | ⟨_, _, heq⟩⟩
    · exact absurd heq.symm (notInteger_ne rfl)
    · exact absurd heq.symm (notPositive_ne w v)
    · exact .inr ⟨v, hsv, outOfRange_inj heq ▸ hsv'⟩

example : pipeline 1 100 (bytes "42") = .success 42 ∧
    pipeline 1 100 (bytes "-5") = .error (bytes "Value must be positive, got: -5") ∧
    pipeline 1 100 (bytes "101") = .error (bytes "Value 101 out of range [1, 100]") := by decide

end

end Playground.ErrorHandling
