import Mathlib.Logic.Function.Basic

/-!
# Streams held at places

What comes in on a stream is kept, in order, at the place that holds the
stream until it is answered. A place holds one stream at most, and a stream
may move from place to place; a stream that is no longer held has been
answered to its end.
-/

namespace Streams

variable {P κ α : Type*}

/-- `held` gives the stream at a place, with what has not been answered of it. -/
structure Balanced (held : P → Option (κ × List α)) (sent answered : κ → List α) : Prop where
  unique : ∀ {p q k bs bs'}, held p = some (k, bs) → held q = some (k, bs') → p = q
  balance : ∀ {p k bs}, held p = some (k, bs) → sent k = answered k ++ bs
  settled : ∀ {k}, (∀ p bs, held p ≠ some (k, bs)) → sent k = answered k

variable {held held' : P → Option (κ × List α)} {sent answered : κ → List α} {p : P} {k : κ} {bs : List α}

theorem balanced_empty : Balanced (fun _ : P => (none : Option (κ × List α))) (fun _ => []) fun _ => [] where
  unique hp := by cases hp
  balance hp := by cases hp
  settled _ := rfl

namespace Balanced

/-- The streams move, each from the place that is the `origin` of where it comes to. -/
theorem move (h : Balanced held sent answered) {origin : P → P} (hinj : origin.Injective)
    (hheld : ∀ q, held' q = held (origin q)) (hall : ∀ p x, held p = some x → ∃ q, origin q = p) :
    Balanced held' sent answered where
  unique hp hq := by
    rw [hheld] at hp hq
    exact hinj (h.unique hp hq)
  balance hp := by
    rw [hheld] at hp
    exact h.balance hp
  settled hk := by
    refine h.settled fun p bs hp => ?_
    obtain ⟨q, rfl⟩ := hall p _ hp
    exact hk q bs ((hheld q).trans hp)

variable [DecidableEq P] [DecidableEq κ]

/-- Only the stream `k` changes, and only the place that holds it or will hold it. -/
theorem change (h : Balanced held sent answered) (hp : ∀ k' bs, held p = some (k', bs) → k' = k)
    (hk : ∀ q bs, held q = some (k, bs) → q = p)
    (left : Option (List α)) {s a : List α} (heq : s = a ++ left.getD []) :
    Balanced (Function.update held p (left.map (Prod.mk k))) (Function.update sent k s)
      (Function.update answered k a) := by
  have hplace : ∀ {q k' bs}, Function.update held p (left.map (Prod.mk k)) q = some (k', bs) →
      q = p ∧ k' = k ∧ left = some bs ∨ q ≠ p ∧ k' ≠ k ∧ held q = some (k', bs) := by
    intro q k' bs hq
    by_cases hqp : q = p
    · subst hqp
      rw [Function.update_self, Option.map_eq_some_iff] at hq
      obtain ⟨_, hleft, heq⟩ := hq
      cases heq
      exact Or.inl ⟨rfl, rfl, hleft⟩
    · rw [Function.update_of_ne hqp] at hq
      exact Or.inr ⟨hqp, fun hkk => hqp (hk q bs (hkk ▸ hq)), hq⟩
  refine ⟨fun hq hq' => ?_, fun hq => ?_, fun {k'} hn => ?_⟩
  · rcases hplace hq with ⟨rfl, rfl, _⟩ | ⟨_, hkk, hq⟩
    · rcases hplace hq' with ⟨rfl, _, _⟩ | ⟨_, hkk, _⟩
      · rfl
      · exact absurd rfl hkk
    · rcases hplace hq' with ⟨_, rfl, _⟩ | ⟨_, _, hq'⟩
      · exact absurd rfl hkk
      · exact h.unique hq hq'
  · rcases hplace hq with ⟨_, rfl, rfl⟩ | ⟨_, hkk, hq⟩
    · simpa using heq
    · rw [Function.update_of_ne hkk, Function.update_of_ne hkk]
      exact h.balance hq
  · by_cases hkk : k' = k
    · subst hkk
      cases left with
      | none => simpa using heq
      | some bs => exact absurd (by simp) (hn p bs)
    · rw [Function.update_of_ne hkk, Function.update_of_ne hkk]
      refine h.settled fun q bs hq => ?_
      by_cases hqp : q = p
      · exact hkk (hp k' bs (hqp ▸ hq))
      · exact hn q bs ((Function.update_of_ne hqp _ _).trans hq)

/-- A place that holds no stream gets one that no other place holds. -/
theorem start (h : Balanced held sent answered) (hp : held p = none) (hk : ∀ q bs, held q ≠ some (k, bs)) :
    Balanced (Function.update held p (some (k, []))) sent answered := by
  have hc := h.change (fun _ _ hq => by rw [hp] at hq; cases hq) (fun q bs hq => absurd hq (hk q bs)) (some [])
    ((h.settled hk).trans (List.append_nil _).symm)
  simpa only [Function.update_eq_self, Option.map_some] using hc

theorem change_held (h : Balanced held sent answered) (hp : held p = some (k, bs)) (left : Option (List α))
    {s a : List α} (heq : s = a ++ left.getD []) :
    Balanced (Function.update held p (left.map (Prod.mk k))) (Function.update sent k s)
      (Function.update answered k a) := by
  refine h.change (fun k' bs' hq => ?_) (fun q bs' hq => h.unique hq hp) left heq
  rw [hp] at hq
  cases hq
  rfl

/-- More comes in. -/
theorem append (h : Balanced held sent answered) (hp : held p = some (k, bs)) (new : List α) :
    Balanced (Function.update held p (some (k, bs ++ new))) (Function.update sent k (sent k ++ new)) answered := by
  have heq : sent k ++ new = answered k ++ (bs ++ new) := by rw [h.balance hp, List.append_assoc]
  simpa only [Function.update_eq_self, Option.map_some] using h.change_held hp (some (bs ++ new)) heq

/-- The first of what is left is answered. -/
theorem answer (h : Balanced held sent answered) {now later : List α} (hp : held p = some (k, now ++ later)) :
    Balanced (Function.update held p (some (k, later))) sent (Function.update answered k (answered k ++ now)) := by
  have heq : sent k = answered k ++ now ++ later := by rw [h.balance hp, List.append_assoc]
  simpa only [Function.update_eq_self, Option.map_some] using h.change_held hp (some later) heq

/-- A stream of which nothing is left may be let go. -/
theorem finish (h : Balanced held sent answered) (hp : held p = some (k, [])) :
    Balanced (Function.update held p none) sent answered := by
  simpa only [Function.update_eq_self, Option.map_none] using h.change_held hp none (h.balance hp)

end Balanced

end Streams
