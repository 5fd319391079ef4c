import Mathlib.Algebra.GroupWithZero.Nat
import Playground.Lib.Ascii

/-!
# Files and directories (`patterns/composite.cpp`)

What is printed is a list of lines, each a byte string without its newline.
The indentation is unbounded.
-/

namespace Playground.Composite

open Ascii

inductive Entry
  | file (name : Bytes) (size : Nat)
  | directory (name : Bytes) (children : List Entry)

mutual

def Entry.size : Entry → Nat
  | .file _ size => size
  | .directory _ children => accumulate 0 children

/-- Sums are of type `size_t`. -/
def accumulate (sum : Nat) : List Entry → Nat
  | [] => sum
  | child :: rest => accumulate ((sum + child.size) % 2 ^ 64) rest

end

/-- `name (size bytes)` -/
def sized (name : Bytes) (size : Nat) : Bytes := name ++ bytes " (" ++ decimal size ++ bytes " bytes)"

mutual

def Entry.print (indent : Nat) : Entry → List Bytes
  | .file name size => [List.replicate indent (byte ' ') ++ sized name size]
  | .directory name children =>
    (List.replicate indent (byte ' ') ++ sized (bytes "[" ++ name ++ bytes "/]") (accumulate 0 children)) ::
      printAll (indent + 2) children

def printAll (indent : Nat) : List Entry → List Bytes
  | [] => []
  | child :: rest => child.print indent ++ printAll indent rest

end

def Entry.output (e : Entry) : Bytes := (e.print 0).flatMap fun line => line ++ [byte '\n']

mutual

/-- The sizes of the files. -/
def Entry.fileSizes : Entry → List Nat
  | .file _ size => [size]
  | .directory _ children => allFileSizes children

def allFileSizes : List Entry → List Nat
  | [] => []
  | child :: rest => child.fileSizes ++ allFileSizes rest

end

/-! ## Lines -/

/-- A line that is indented by `d`. -/
def Indented (d : Nat) (line : Bytes) : Prop :=
  ∃ b u, line = List.replicate d (byte ' ') ++ b :: u ∧ b ≠ byte ' '

theorem Indented.inj {d d' : Nat} {line : Bytes} (h : Indented d line) (h' : Indented d' line) : d = d' := by
  obtain ⟨b, u, rfl, hb⟩ := h
  obtain ⟨b', u', heq, hb'⟩ := h'
  exact (indent_inj hb hb' heq).1

mutual

/-- No name contains a newline, and a file's can be told from white space and from a directory's. -/
def Entry.Named : Entry → Prop
  | .file name _ => byte '\n' ∉ name ∧ ∃ b u, name = b :: u ∧ b ≠ byte ' ' ∧ b ≠ byte '['
  | .directory name children => byte '\n' ∉ name ∧ allNamed children

def allNamed : List Entry → Prop
  | [] => True
  | child :: rest => child.Named ∧ allNamed rest

end

/-- The first line of what is printed, without its indentation. -/
def Entry.label : Entry → Bytes
  | .file name size => sized name size
  | .directory name children => sized (bytes "[" ++ name ++ bytes "/]") (accumulate 0 children)

def Entry.children : Entry → List Entry
  | .file _ _ => []
  | .directory _ children => children

theorem print_eq (d : Nat) (e : Entry) :
    e.print d = (List.replicate d (byte ' ') ++ e.label) :: printAll (d + 2) e.children := by
  cases e <;> rfl

theorem label_cons {e : Entry} (h : e.Named) : ∃ b u, e.label = b :: u ∧ b ≠ byte ' ' := by
  cases e with
  | file name size =>
    obtain ⟨_, b, u, rfl, hb, _⟩ := h
    exact ⟨b, _, rfl, hb⟩
  | directory name children => exact ⟨byte '[', _, rfl, by decide⟩

/-- What follows begins with a line that is indented less than `d`. -/
def Shallow (d : Nat) (rest : List Bytes) : Prop := ∀ line ∈ rest.head?, ∃ k < d, Indented k line

theorem printAll_cons (d : Nat) (e : Entry) (es : List Entry) (rest : List Bytes) : printAll d (e :: es) ++ rest =
    (List.replicate d (byte ' ') ++ e.label) :: (printAll (d + 2) e.children ++ (printAll d es ++ rest)) := by
  rw [printAll, print_eq, List.cons_append, List.cons_append, List.append_assoc]

theorem indented_label (d : Nat) {e : Entry} (h : e.Named) :
    Indented d (List.replicate d (byte ' ') ++ e.label) := by
  obtain ⟨b, u, hl, hb⟩ := label_cons h
  exact ⟨b, u, by rw [hl], hb⟩

theorem Shallow.printAll {d : Nat} {es : List Entry} {rest : List Bytes} (h : allNamed es) (hr : Shallow d rest) :
    Shallow (d + 2) (printAll d es ++ rest) := by
  cases es with
  | nil =>
    intro line hl
    obtain ⟨k, hk, hi⟩ := hr line hl
    exact ⟨k, by omega, hi⟩
  | cons e es =>
    rw [printAll_cons]
    rintro line ⟨⟩
    exact ⟨d, by omega, indented_label d h.1⟩

def inside : Entry := .directory (bytes "x") [.directory (bytes "b") [.file (bytes "a") 1]]

mutual

theorem size_eq : ∀ e : Entry, (∀ n ∈ e.fileSizes, n < 2 ^ 64) → e.size = e.fileSizes.sum % 2 ^ 64
  | .file _ size, h => by
    rw [Entry.size, Entry.fileSizes, List.sum_singleton, Nat.mod_eq_of_lt (h size List.mem_cons_self)]
  | .directory _ children, h => by
    rw [Entry.size, accumulate_eq children 0 h (by decide), Nat.zero_add]
    rfl

theorem accumulate_eq : ∀ (es : List Entry) (sum : Nat), (∀ n ∈ allFileSizes es, n < 2 ^ 64) → sum < 2 ^ 64 →
    accumulate sum es = (sum + (allFileSizes es).sum) % 2 ^ 64
  | [], sum, _, hsum => by
    rw [accumulate, allFileSizes, List.sum_nil, Nat.add_zero, Nat.mod_eq_of_lt hsum]
  | e :: es, sum, h, _ => by
    have he := size_eq e fun n hn => h n (List.mem_append_left _ hn)
    have hes := accumulate_eq es ((sum + e.size) % 2 ^ 64) (fun n hn => h n (List.mem_append_right _ hn))
      (Nat.mod_lt _ (by decide))
    rw [accumulate, hes, he, allFileSizes, List.sum_append]
    omega

end

end Playground.Composite
