import Playground.Lib.Ascii
import Playground.Lib.CInt

/-!
# Visitors of expression trees (`patterns/visitor.cpp`)

The leaves are exact rationals. `accept` sends a node to the method of the
visitor for its kind, with what visiting the operands does. A conversion to
`int` that does not fit has no meaning (`none`).
-/

namespace Playground.Visitor

open Ascii

inductive Expression
  | number (value : Rat)
  | add (left right : Expression)
  | multiply (left right : Expression)
  deriving DecidableEq

structure ExprVisitor (σ : Type) where
  visitNumber : Rat → σ → Option σ
  visitAdd : (σ → Option σ) → (σ → Option σ) → σ → Option σ
  visitMultiply : (σ → Option σ) → (σ → Option σ) → σ → Option σ

def accept {σ : Type} (v : ExprVisitor σ) : Expression → σ → Option σ
  | .number x => v.visitNumber x
  | .add l r => v.visitAdd (accept v l) (accept v r)
  | .multiply l r => v.visitMultiply (accept v l) (accept v r)

structure EvalVisitor where
  result : Rat := 0

def evalBinary (op : Rat → Rat → Rat) (left right : EvalVisitor → Option EvalVisitor) (s : EvalVisitor) :
    Option EvalVisitor := do
  let s ← left s
  let l := s.result
  let s ← right s
  let r := s.result
  some { s with result := op l r }

def evalVisitor : ExprVisitor EvalVisitor where
  visitNumber x s := some { s with result := x }
  visitAdd := evalBinary (· + ·)
  visitMultiply := evalBinary (· * ·)

structure PrintVisitor where
  output : Bytes := []

/-- Toward zero. -/
def truncate (x : Rat) : Int := x.num.tdiv x.den

def printBinary (symbol : Bytes) (left right : PrintVisitor → Option PrintVisitor) (s : PrintVisitor) :
    Option PrintVisitor := do
  let s ← left { s with output := s.output ++ bytes "(" }
  let s ← right { s with output := s.output ++ symbol }
  some { s with output := s.output ++ bytes ")" }

def printVisitor : ExprVisitor PrintVisitor where
  visitNumber x s := do
    let i ← CInt.fit (truncate x) -- static_cast<int>
    some { s with output := s.output ++ ofInt i }
  visitAdd := printBinary (bytes " + ")
  visitMultiply := printBinary (bytes " * ")

/-- The text of a fresh `PrintVisitor`. -/
def printed (t : Expression) : Option Bytes := (accept printVisitor t {}).map PrintVisitor.output

/-- `result()` after the visit. -/
def evaluated (s : EvalVisitor) (t : Expression) : Option Rat := (accept evalVisitor t s).map EvalVisitor.result

/-! ## What a text means -/

def value : Expression → Rat
  | .number x => x
  | .add l r => value l + value r
  | .multiply l r => value l * value r

/-- What follows `p` at the front of a text. -/
def literal (p s : Bytes) : Option Bytes := if p <+: s then some (s.drop p.length) else none

def operator (s : Bytes) : Option ((Expression → Expression → Expression) × Bytes) :=
  match literal (bytes " + ") s with
  | some s => some (.add, s)
  | none => (literal (bytes " * ") s).map fun s => (.multiply, s)

/-- A numeral, or two expressions in brackets with an operator between them. -/
def parsePrefix : Nat → Bytes → Option (Expression × Bytes)
  | 0, _ => none
  | n + 1, s =>
    match literal (bytes "(") s with
    | none => (readInt s).map fun p => (.number p.1, p.2)
    | some s => do
      let (l, s) ← parsePrefix n s
      let (op, s) ← operator s
      let (r, s) ← parsePrefix n s
      let s ← literal (bytes ")") s
      some (op l r, s)

/-- The expression a text denotes, fully parenthesised; its length bounds the depth. -/
def parse (text : Bytes) : Option Expression :=
  match parsePrefix text.length text with
  | some (t, []) => some t
  | _ => none

/-! ## The visitors -/

def Expression.Leaves (P : Rat → Prop) : Expression → Prop
  | .number x => P x
  | .add l r => l.Leaves P ∧ r.Leaves P
  | .multiply l r => l.Leaves P ∧ r.Leaves P

theorem accept_evalVisitor (t : Expression) (s : EvalVisitor) : accept evalVisitor t s = some ⟨value t⟩ := by
  have hbinary : ∀ op left right x y, (∀ s, left s = some ⟨x⟩) → (∀ s, right s = some ⟨y⟩) →
      ∀ s, evalBinary op left right s = some ⟨op x y⟩ := by
    intro op left right x y hl hr s
    rw [evalBinary, hl]
    exact congrArg (Option.bind · _) (hr _)
  induction t generalizing s with
  | number x => rfl
  | add l r ihl ihr => exact hbinary _ _ _ _ _ ihl ihr s
  | multiply l r ihl ihr => exact hbinary _ _ _ _ _ ihl ihr s

theorem evaluated_eq (s : EvalVisitor) (t : Expression) : evaluated s t = some (value t) := by
  rw [evaluated, accept_evalVisitor, Option.map_some]

def bracketed (symbol l r : Bytes) : Bytes := bytes "(" ++ (l ++ (symbol ++ (r ++ bytes ")")))

def text : Expression → Bytes
  | .number x => ofInt (truncate x)
  | .add l r => bracketed (bytes " + ") (text l) (text r)
  | .multiply l r => bracketed (bytes " * ") (text l) (text r)

/-- The conversion of a leaf to `int` has a meaning. -/
def Fits (x : Rat) : Prop := -2 ^ 31 ≤ truncate x ∧ truncate x < 2 ^ 31

theorem accept_printVisitor {t : Expression} (h : t.Leaves Fits) (s : PrintVisitor) :
    accept printVisitor t s = some ⟨s.output ++ text t⟩ := by
  have hbinary : ∀ symbol left right x y, (∀ s : PrintVisitor, left s = some ⟨s.output ++ x⟩) →
      (∀ s : PrintVisitor, right s = some ⟨s.output ++ y⟩) →
      ∀ s, printBinary symbol left right s = some ⟨s.output ++ bracketed symbol x y⟩ := by
    intro symbol left right x y hl hr s
    simp [printBinary, hl, hr, bracketed]
  induction t generalizing s with
  | number x => simp [accept, printVisitor, CInt.fit_of h.1 h.2, text]
  | add l r ihl ihr => exact hbinary _ _ _ _ _ (ihl h.1) (ihr h.2) s
  | multiply l r ihl ihr => exact hbinary _ _ _ _ _ (ihl h.1) (ihr h.2) s

theorem printed_eq {t : Expression} (h : t.Leaves Fits) : printed t = some (text t) := by
  rw [printed, accept_printVisitor h, Option.map_some, List.nil_append]

/-! ## Reading the text -/

def Expression.truncated : Expression → Expression
  | .number x => .number (truncate x)
  | .add l r => .add l.truncated r.truncated
  | .multiply l r => .multiply l.truncated r.truncated

theorem literal_append (p s : Bytes) : literal p (p ++ s) = some s := by
  rw [literal, if_pos (List.prefix_append p s), List.drop_left]

theorem literal_ofInt (x : Int) (s : Bytes) : literal (bytes "(") (ofInt x ++ s) = none := by
  obtain ⟨b, t, h, hb⟩ := ofInt_eq_cons x
  rw [literal, if_neg]
  rw [h]
  rintro ⟨u, hu⟩
  obtain rfl : byte '(' = b := (List.cons.inj hu).1
  rcases hb with hb | hb <;> cases hb

theorem operator_add (s : Bytes) : operator (bytes " + " ++ s) = some (.add, s) := by
  rw [operator, literal_append]

theorem operator_multiply (s : Bytes) : operator (bytes " * " ++ s) = some (.multiply, s) := by
  have hne : literal (bytes " + ") (bytes " * " ++ s) = none := by
    rw [literal, if_neg]
    rintro ⟨u, hu⟩
    have hplus : byte '+' = byte '*' := (List.cons.inj (List.cons.inj hu).2).1
    exact absurd hplus (by decide)
  rw [operator, hne, literal_append]
  rfl

theorem parsePrefix_bracketed {symbol l r rest : Bytes} {op : Expression → Expression → Expression}
    {t u : Expression} {n : Nat} (hsymbol : ∀ s, operator (symbol ++ s) = some (op, s))
    (hl : parsePrefix n (l ++ (symbol ++ (r ++ (bytes ")" ++ rest)))) =
      some (t, symbol ++ (r ++ (bytes ")" ++ rest))))
    (hr : parsePrefix n (r ++ (bytes ")" ++ rest)) = some (u, bytes ")" ++ rest)) :
    parsePrefix (n + 1) (bracketed symbol l r ++ rest) = some (op t u, rest) := by
  simp only [bracketed, List.append_assoc]
  rw [parsePrefix, literal_append]
  simp only [Option.bind_eq_bind, hl, Option.bind_some, hsymbol, hr, literal_append]

theorem head_cons {c : UInt8} {s : Bytes} (hc : isDigit c = false) : ∀ b ∈ (c :: s).head?, isDigit b = false := by
  rintro b ⟨⟩
  exact hc

/-- What follows a text does not go on with a digit. -/
theorem parsePrefix_text {t : Expression} {n : Nat} {rest : Bytes} (hn : (text t).length ≤ n)
    (h : ∀ b ∈ rest.head?, isDigit b = false) : parsePrefix n (text t ++ rest) = some (t.truncated, rest) := by
  have hlen : ∀ symbol l r : Bytes, (bracketed symbol l r).length = l.length + symbol.length + r.length + 2 := by
    intro symbol l r
    simp only [bracketed, List.length_append, show (bytes "(").length = 1 from rfl,
      show (bytes ")").length = 1 from rfl]
    omega
  induction t generalizing n rest with
  | number x =>
    cases n with
    | zero =>
      obtain ⟨b, u, hu, -⟩ := ofInt_eq_cons (truncate x)
      rw [text, hu] at hn
      cases hn
    | succ n =>
      rw [text, parsePrefix, literal_ofInt]
      simp only
      rw [readInt_ofInt _ h]
      rfl
  | add l r ihl ihr =>
    rw [text, hlen] at hn
    obtain ⟨n, rfl⟩ := Nat.exists_eq_succ_of_ne_zero (Nat.ne_of_gt (Nat.lt_of_lt_of_le (Nat.succ_pos _) hn))
    exact parsePrefix_bracketed operator_add (ihl (by omega) (head_cons rfl)) (ihr (by omega) (head_cons rfl))
  | multiply l r ihl ihr =>
    rw [text, hlen] at hn
    obtain ⟨n, rfl⟩ := Nat.exists_eq_succ_of_ne_zero (Nat.ne_of_gt (Nat.lt_of_lt_of_le (Nat.succ_pos _) hn))
    exact parsePrefix_bracketed operator_multiply (ihl (by omega) (head_cons rfl)) (ihr (by omega) (head_cons rfl))

theorem parse_text (t : Expression) : parse (text t) = some t.truncated := by
  have h : parsePrefix (text t).length (text t ++ []) = some (t.truncated, []) :=
    parsePrefix_text (Nat.le_refl _) nofun
  rw [List.append_nil] at h
  rw [parse, h]

theorem truncate_intCast (z : Int) : truncate z = z := by
  simp [truncate]

theorem truncated_eq {t : Expression} (h : t.Leaves fun x => ∃ z : Int, x = z) : t.truncated = t := by
  induction t with
  | number x =>
    obtain ⟨z, rfl⟩ := h
    rw [Expression.truncated, truncate_intCast]
  | add l r ihl ihr => rw [Expression.truncated, ihl h.1, ihr h.2]
  | multiply l r ihl ihr => rw [Expression.truncated, ihl h.1, ihr h.2]

/-- The text means the value of the expression with its leaves truncated, which is the value of the expression if
they are integers. -/
theorem printed_parses {t : Expression} (h : t.Leaves Fits) : ∃ s u, printed t = some s ∧ parse s = some u ∧
    (∀ e, evaluated e t.truncated = some (value u)) ∧
    ((t.Leaves fun x => ∃ z : Int, x = z) → ∀ e, evaluated e t = some (value u)) := by
  refine ⟨text t, t.truncated, printed_eq h, parse_text t, fun e => evaluated_eq e _, fun hint e => ?_⟩
  rw [evaluated_eq, truncated_eq hint]

theorem printed_parses_example : ∃ s u, printed (.multiply (.add (.number 3) (.number 4)) (.number 2)) = some s ∧
    parse s = some u ∧
    (∀ e, evaluated e (Expression.multiply (.add (.number 3) (.number 4)) (.number 2)).truncated = some (value u)) ∧
    (((Expression.multiply (.add (.number 3) (.number 4)) (.number 2)).Leaves fun x => ∃ z : Int, x = z) →
      ∀ e, evaluated e (.multiply (.add (.number 3) (.number 4)) (.number 2)) = some (value u)) :=
  printed_parses (by simp [Expression.Leaves, Fits, truncate])

abbrev half : Rat := ⟨1, 2, by decide, by decide⟩

/-- One half is printed as `0`. -/
theorem printed_half : printed (.number half) = some (bytes "0") ∧ parse (bytes "0") = some (.number 0) ∧
    ∀ e, evaluated e (.number half) ≠ some (value (.number 0)) := by
  refine ⟨by decide, by decide, fun e => ?_⟩
  rw [evaluated_eq]
  decide

/-! ## Different trees, different texts -/

/-- A leaf that is an `int`. -/
def IsInt (x : Rat) : Prop := ∃ z : Int, x = z ∧ -2 ^ 31 ≤ z ∧ z < 2 ^ 31

theorem IsInt.fits {x : Rat} (h : IsInt x) : Fits x := by
  obtain ⟨z, rfl, hz⟩ := h
  unfold Fits
  rw [truncate_intCast]
  exact hz

theorem Expression.Leaves.imp {P Q : Rat → Prop} (h : ∀ x, P x → Q x) {t : Expression} (ht : t.Leaves P) :
    t.Leaves Q := by
  induction t with
  | number x => exact h x ht
  | add l r ihl ihr => exact ⟨ihl ht.1, ihr ht.2⟩
  | multiply l r ihl ihr => exact ⟨ihl ht.1, ihr ht.2⟩

theorem parse_printed {t : Expression} (h : t.Leaves IsInt) : (printed t).bind parse = some t := by
  have hint : t.Leaves fun x => ∃ z : Int, x = z := h.imp fun x ⟨z, hz, _⟩ => ⟨z, hz⟩
  rw [printed_eq (h.imp fun x => IsInt.fits), Option.bind_some, parse_text, truncated_eq hint]

theorem printed_injective {s t : Expression} (hs : s.Leaves IsInt) (ht : t.Leaves IsInt)
    (h : printed s = printed t) :
    s = t := by
  have hparse := parse_printed hs
  rw [h, parse_printed ht] at hparse
  exact (Option.some.inj hparse).symm

theorem printed_injective_negative : printed (.add (.number (-1 : Int)) (.number (2 : Int))) ≠
    printed (.add (.number (2 : Int)) (.number (-1 : Int))) := by
  intro h
  have hminus : IsInt (-1 : Int) := ⟨-1, rfl, by decide, by decide⟩
  have htwo : IsInt (2 : Int) := ⟨2, rfl, by decide, by decide⟩
  have hs : (Expression.add (.number (-1 : Int)) (.number (2 : Int))).Leaves IsInt := ⟨hminus, htwo⟩
  have ht : (Expression.add (.number (2 : Int)) (.number (-1 : Int))).Leaves IsInt := ⟨htwo, hminus⟩
  exact absurd (printed_injective hs ht h) (by decide)

end Playground.Visitor
