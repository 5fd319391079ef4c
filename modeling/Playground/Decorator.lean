import Playground.Lib.Ascii

/-!
# Stream decorators (`patterns/decorator.cpp`)

A stream is the raw stream or a decorator around another stream. A decorator
encodes what it writes and hands it to the stream it wraps, and decodes what
that stream reads. What the layers print on the console is left out.
-/

namespace Playground.Decorator

inductive DataStream
  | rawStream
  | encryptedStream (wrapped : DataStream)
  | compressedStream (wrapped : DataStream)
  deriving DecidableEq, Repr

/-- `for (char& c : data) c ^= 0x42;` -/
def encrypt (data : Bytes) : Bytes := data.map fun c => c ^^^ 0x42

/-- `"[compressed:" + std::to_string(data.size()) + "]" + data` -/
def compress (data : Bytes) : Bytes :=
  Ascii.bytes "[compressed:" ++ Ascii.decimal data.length ++ Ascii.bytes "]" ++ data

/-- Strip the compression header: what follows the first `]`, if there is one. -/
def decompress (raw : Bytes) : Bytes :=
  match raw.findIdx? fun c => c = Ascii.byte ']' with
  | some pos => raw.drop (pos + 1)
  | none => raw

def write : DataStream → Bytes → Bytes
  | .rawStream, data => data
  | .encryptedStream wrapped, data => write wrapped (encrypt data)
  | .compressedStream wrapped, data => write wrapped (compress data)

def read : DataStream → Bytes → Bytes
  | .rawStream, data => data
  | .encryptedStream wrapped, data => encrypt (read wrapped data)
  | .compressedStream wrapped, data => decompress (read wrapped data)

/-! ## Each layer decodes what it encodes -/

theorem encrypt_encrypt : Function.LeftInverse encrypt encrypt := by
  intro data
  have hxor : ∀ c : UInt8, c ^^^ 0x42 ^^^ 0x42 = c := fun c => by
    rw [UInt8.xor_assoc, UInt8.xor_self, UInt8.xor_zero]
  induction data with
  | nil => rfl
  | cons c data ih => exact congrArg₂ List.cons (hxor c) ih

theorem not_bracket_of_mem_header {n : Nat} {c : UInt8}
    (h : c ∈ Ascii.bytes "[compressed:" ++ Ascii.decimal n) : c ≠ Ascii.byte ']' := by
  rcases List.mem_append.mp h with h | h
  · have hall : (Ascii.bytes "[compressed:").all (fun c => c != Ascii.byte ']') = true := by decide
    exact bne_iff_ne.mp (List.all_eq_true.mp hall c h)
  · intro heq
    subst heq
    exact absurd (Ascii.digit_of_mem_decimal h).2 (by decide)

theorem decompress_compress : Function.LeftInverse decompress compress := by
  intro data
  let header := Ascii.bytes "[compressed:" ++ Ascii.decimal data.length
  have hsplit : compress data = header ++ Ascii.byte ']' :: data := by
    unfold compress
    rw [List.append_assoc _ _ data]
    rfl
  have hnone : header.findIdx? (fun c => decide (c = Ascii.byte ']')) = none := by
    rw [List.findIdx?_eq_none_iff]
    intro c hc
    exact decide_eq_false (not_bracket_of_mem_header hc)
  have hpos : (compress data).findIdx? (fun c => decide (c = Ascii.byte ']')) = some header.length := by
    rw [hsplit, List.findIdx?_append, hnone, List.findIdx?_cons, decide_eq_true rfl]
    simp
  unfold decompress
  rw [hpos, hsplit]
  simp

/-- **Decorators are transparent**, however they are stacked. -/
theorem read_write (stream : DataStream) (data : Bytes) : read stream (write stream data) = data := by
  have hstack : Function.LeftInverse (read stream) (write stream) := by
    induction stream with
    | rawStream => exact fun data => rfl
    | encryptedStream wrapped ih => exact ih.comp encrypt_encrypt
    | compressedStream wrapped ih => exact ih.comp decompress_compress
  exact hstack data

end Playground.Decorator
