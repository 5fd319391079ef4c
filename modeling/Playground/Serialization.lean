import Playground.Lib.Ascii
import Playground.Lib.CInt

/-!
# Serializing a user (`modern_cpp/practical/type_traits_concepts.cpp`)

A `std::string` is its bytes.
-/

namespace Playground.Serialization

open Ascii

structure UserData where
  name : Bytes
  age : Int32
  deriving DecidableEq

/-- What `std::stoi` throws. -/
inductive StoiError
  | invalidArgument
  | outOfRange
  deriving DecidableEq

def isSpace (b : UInt8) : Bool := b == byte ' ' || 9 ≤ b && b ≤ 13

/-- `std::stoi`: what follows the numeral is left. -/
def stoi (s : Bytes) : Except StoiError Int32 :=
  match readInt (s.dropWhile isSpace) with
  | none => .error .invalidArgument
  | some (x, _) =>
    match CInt.fit x with
    | none => .error .outOfRange
    | some x => .ok (Int32.ofInt x)

def serialize (u : UserData) : Bytes := u.name ++ byte ':' :: ofInt u.age.toInt

/-- Without a colon `pos` is `npos`, and `pos + 1` is 0. -/
def deserialize (data : Bytes) : Except StoiError UserData :=
  match data.idxOf? (byte ':') with
  | none => (stoi data).map fun age => ⟨data, age⟩
  | some pos => (stoi (data.drop (pos + 1))).map fun age => ⟨data.take pos, age⟩

def roundTrip (u : UserData) : Except StoiError Bytes := do
  let deserialized ← deserialize (serialize u)
  .ok (serialize deserialized)

/-! ## Numerals -/

theorem stoi_ofInt (age : Int32) : stoi (ofInt age.toInt) = .ok age := by
  have hread : readInt (ofInt age.toInt ++ []) = some (age.toInt, []) := readInt_ofInt _ nofun
  rw [List.append_nil] at hread
  have hspace : (ofInt age.toInt).dropWhile isSpace = ofInt age.toInt := by
    obtain ⟨b, t, h, hb⟩ := ofInt_eq_cons age.toInt
    rw [h, List.dropWhile_cons_of_neg]
    rcases hb with rfl | hb
    · decide
    · simp only [isDigit, Bool.and_eq_true, decide_eq_true_eq, UInt8.le_iff_toNat_le] at hb
      simp only [isSpace, Bool.or_eq_true, beq_iff_eq, Bool.and_eq_true, decide_eq_true_eq, UInt8.le_iff_toNat_le]
      rintro (rfl | h)
      · exact absurd hb.1 (by decide)
      · exact absurd (Nat.le_trans hb.1 h.2) (by decide)
  rw [stoi, hspace, hread]
  simp only
  rw [CInt.fit_of (Int32.le_toInt age) (Int32.toInt_lt age)]
  simp

theorem colon_notMem_ofInt (x : Int) : byte ':' ∉ ofInt x := by
  intro h
  rcases mem_ofInt h with h | h <;> cases h

/-! ## The separator -/

theorem idxOf?_append_cons {a t : Bytes} {b : UInt8} (h : b ∉ a) : (a ++ b :: t).idxOf? b = some a.length := by
  induction a with
  | nil => simp [List.idxOf?_cons]
  | cons c a ih =>
    rw [List.mem_cons, not_or] at h
    rw [List.cons_append, List.idxOf?_cons, if_neg (by simpa using Ne.symm h.1), ih h.2]
    rfl

theorem deserialize_append {a t : Bytes} (h : byte ':' ∉ a) :
    deserialize (a ++ byte ':' :: t) = (stoi t).map fun age => ⟨a, age⟩ := by
  rw [deserialize, idxOf?_append_cons h]
  simp

theorem deserialize_serialize {u : UserData} (h : byte ':' ∉ u.name) : deserialize (serialize u) = .ok u := by
  rw [serialize, deserialize_append h, stoi_ofInt]
  rfl

/-- A name with a colon in it comes back without what follows the colon. -/
theorem deserialize_colon {u : UserData} (h : byte ':' ∈ u.name) : ∃ a b, u.name = a ++ byte ':' :: b ∧
    deserialize (serialize u) = (stoi (b ++ byte ':' :: ofInt u.age.toInt)).map fun age => ⟨a, age⟩ := by
  obtain ⟨a, b, hname, ha⟩ := List.eq_append_cons_of_mem h
  refine ⟨a, b, hname, ?_⟩
  rw [serialize, hname, List.append_assoc, List.cons_append, deserialize_append ha]

/-- The serialization is read back exactly if there is no colon in the name. -/
theorem round_trip_iff (u : UserData) : (deserialize (serialize u) = .ok u ↔ byte ':' ∉ u.name) ∧
    (roundTrip u = .ok (serialize u) ↔ byte ':' ∉ u.name) := by
  by_cases h : byte ':' ∈ u.name
  · obtain ⟨a, b, hname, hread⟩ := deserialize_colon h
    rw [roundTrip, hread]
    cases hage : stoi (b ++ byte ':' :: ofInt u.age.toInt) with
    | error e => exact ⟨iff_of_false nofun (not_not_intro h), iff_of_false nofun (not_not_intro h)⟩
    | ok age =>
      refine ⟨iff_of_false (fun heq => ?_) (not_not_intro h), iff_of_false (fun heq => ?_) (not_not_intro h)⟩
      · have := congrArg UserData.name (Except.ok.inj heq)
        rw [hname] at this
        simpa using congrArg List.length this
      · have := Except.ok.inj heq
        rw [serialize, serialize, hname, List.append_assoc, List.append_cancel_left_eq, List.cons_append,
          List.cons_inj_right] at this
        exact colon_notMem_ofInt age.toInt (this ▸ List.mem_append_right b List.mem_cons_self)
  · rw [roundTrip, deserialize_serialize h]
    exact ⟨iff_of_true rfl h, iff_of_true rfl h⟩

/-- The name `a:b`. -/
theorem round_trip_colon : deserialize (serialize ⟨bytes "a:b", 30⟩) = .error .invalidArgument ∧
    deserialize (serialize ⟨bytes "a:1", 30⟩) = .ok ⟨bytes "a", 1⟩ := by
  decide

end Playground.Serialization
