import Mathlib.Data.List.Nodup
import Mathlib.Data.List.Range

/-!
# Null-terminated chains

Nodes that each may hold a link, null or the address of another node. `next`
gives the link at an address, if there is one there.
-/

/-- Following `next` from `head` visits exactly the addresses listed and ends at null. -/
def Chain {A : Type*} (next : A → Option (Option A)) : Option A → List A → Prop
  | head, [] => head = none
  | head, a :: l => head = some a ∧ ∃ x, next a = some x ∧ Chain next x l

namespace Chain

variable {A : Type*} {next next' : A → Option (Option A)}

theorem frame {head : Option A} {l : List A} (h : Chain next head l) (hl : ∀ a ∈ l, next' a = next a) :
    Chain next' head l := by
  induction l generalizing head with
  | nil => exact h
  | cons a l ih =>
    obtain ⟨hh, x, hx, ht⟩ := h
    exact ⟨hh, x, (hl a (by simp)).trans hx, ih ht fun b hb => hl b (by simp [hb])⟩

theorem unique {head : Option A} {l l' : List A} (h : Chain next head l) (h' : Chain next head l') : l = l' := by
  induction l generalizing head l' with
  | nil =>
    cases l' with
    | nil => rfl
    | cons b l' => exact absurd (h.symm.trans h'.1) (by simp)
  | cons a l ih =>
    obtain ⟨rfl, x, hx, ht⟩ := h
    cases l' with
    | nil => cases h'
    | cons b l' =>
      obtain ⟨hb, y, hy, ht'⟩ := h'
      obtain rfl := Option.some.inj hb
      obtain rfl := Option.some.inj (hx.symm.trans hy)
      rw [ih ht ht']

theorem append {head : Option A} {l₁ l₂ : List A} (h : Chain next head (l₁ ++ l₂)) :
    ∃ mid, Chain next mid l₂ ∧ (l₁ = [] → mid = head) := by
  induction l₁ generalizing head with
  | nil => exact ⟨head, h, fun _ => rfl⟩
  | cons a l₁ ih =>
    obtain ⟨-, x, -, ht⟩ := h
    obtain ⟨mid, hm, -⟩ := ih ht
    exact ⟨mid, hm, by simp⟩

theorem nodup {head : Option A} {l : List A} (h : Chain next head l) : l.Nodup := by
  induction l generalizing head with
  | nil => exact List.nodup_nil
  | cons a l ih =>
    obtain ⟨rfl, x, hx, ht⟩ := h
    apply List.nodup_cons.mpr ⟨_, ih ht⟩
    intro ha
    obtain ⟨l₁, l₂, rfl⟩ := List.append_of_mem ha
    obtain ⟨mid, hm, -⟩ := append ht
    -- from `a` on, the chain is `l₂` and also all of the tail
    obtain rfl : mid = some a := hm.1
    have hall : Chain next (some a) (a :: (l₁ ++ a :: l₂)) := ⟨rfl, x, hx, ht⟩
    have hlen := congrArg List.length (unique hm hall)
    simp at hlen
    omega

theorem of_range' {next : Nat → Option (Option Nat)} {n : Nat} (a : Nat)
    (hnext : ∀ i, a ≤ i → i < a + n → next i = some (some (i + 1))) (hlast : next (a + n) = some none) :
    Chain next (some a) (List.range' a (n + 1)) := by
  induction n generalizing a with
  | zero => exact ⟨rfl, none, hlast, rfl⟩
  | succ n ih =>
    refine ⟨rfl, some (a + 1), hnext a (by omega) (by omega), ih (a + 1) ?_ ?_⟩
    · intro i h₁ h₂
      exact hnext i (by omega) (by omega)
    · rw [← hlast]
      congr 1; omega

end Chain
