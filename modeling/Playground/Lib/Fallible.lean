/-!
# Computations that may fail

Where the value, or the error, of a computation in `Except` comes from.
-/

namespace Fallible

variable {ε α β : Type} {e : ε}

theorem bind_eq_ok {x : Except ε α} {f : α → Except ε β} {b : β} :
    (x >>= f) = .ok b ↔ ∃ a, x = .ok a ∧ f a = .ok b := by
  cases x with
  | error e => exact ⟨nofun, nofun⟩
  | ok a => exact ⟨fun h => ⟨a, rfl, h⟩, fun ⟨_, h, hf⟩ => by cases h; exact hf⟩

theorem bind_eq_error {x : Except ε α} {f : α → Except ε β} :
    (x >>= f) = .error e ↔ x = .error e ∨ ∃ a, x = .ok a ∧ f a = .error e := by
  cases x with
  | error d => exact ⟨fun h => .inl (by cases h; rfl), fun h => by rcases h with h | ⟨a, h, -⟩ <;> cases h; rfl⟩
  | ok a => exact ⟨fun h => .inr ⟨a, rfl, h⟩, fun h => by rcases h with h | ⟨b, h, hb⟩ <;> cases h; exact hb⟩

theorem foldlM_eq_error {f : β → α → Except ε β} {l : List α} {s : β} (h : l.foldlM f s = .error e) :
    ∃ a ∈ l, ∃ t, f t a = .error e := by
  induction l generalizing s with
  | nil => cases h
  | cons a l ih =>
    rw [List.foldlM_cons] at h
    rcases bind_eq_error.mp h with h | ⟨t, -, h⟩
    · exact ⟨a, List.mem_cons_self, s, h⟩
    · obtain ⟨b, hb, hf⟩ := ih h
      exact ⟨b, List.mem_cons_of_mem _ hb, hf⟩

end Fallible
