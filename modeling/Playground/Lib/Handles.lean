import Mathlib.Logic.Function.Basic

/-!
# Handles with one holder

Handles, such as addresses and descriptors, are live or free. Names hold them.
While every live handle has exactly one holder, none is freed twice, used after
it was freed, or lost.
-/

namespace Handles

/-- Where handles come from: one that is free, or none. -/
structure Source (ι H : Type*) where
  pick : (H → Bool) → ι → Option H
  free : ∀ live i h, pick live i = some h → live h = false

/-- The least one below `n` that is free. -/
def Source.least {ι : Type*} (n : Nat) : Source ι Nat where
  pick live _ := (List.range n).find? fun h => !live h
  free live _ h hpick := by simpa only [Bool.not_eq_true'] using List.find?_some hpick

section
variable {N H : Type*} {holds : N → Option H} {live live' : H → Bool} {n m : N} {h : H}

/-- Every live handle is held by exactly one name. -/
structure Owned (holds : N → Option H) (live : H → Bool) : Prop where
  inj : ∀ n m h, holds n = some h → holds m = some h → n = m
  live_iff : ∀ h, live h = true ↔ ∃ n, holds n = some h

theorem Owned.empty : Owned (fun _ : N => none) fun _ : H => false where
  inj n m h hn := by cases hn
  live_iff h := by simp

theorem Owned.held_live (o : Owned holds live) (hn : holds n = some h) : live h = true := (o.live_iff h).mpr ⟨n, hn⟩

theorem Owned.not_held (o : Owned holds live) (hf : live h = false) (m : N) : holds m ≠ some h := fun hm => by
  rw [o.held_live hm] at hf
  cases hf

variable [DecidableEq N] [DecidableEq H]

theorem Owned.acquire (o : Owned holds live) (hn : holds n = none) (hf : live h = false) :
    Owned (Function.update holds n (some h)) (Function.update live h true) where
  inj := by
    intro a b k ha hb
    by_cases han : a = n
    · subst han
      rw [Function.update_self] at ha
      cases ha
      by_cases hbn : b = a
      · exact hbn.symm
      · rw [Function.update_of_ne hbn] at hb
        exact absurd hb (o.not_held hf b)
    · rw [Function.update_of_ne han] at ha
      by_cases hbn : b = n
      · subst hbn
        rw [Function.update_self] at hb
        cases hb
        exact absurd ha (o.not_held hf a)
      · rw [Function.update_of_ne hbn] at hb
        exact o.inj a b k ha hb
  live_iff := by
    intro k
    by_cases hk : k = h
    · subst hk
      rw [Function.update_self]
      exact iff_of_true rfl ⟨n, Function.update_self ..⟩
    · rw [Function.update_of_ne hk, o.live_iff]
      constructor
      · rintro ⟨a, ha⟩
        have han : a ≠ n := by
          rintro rfl
          rw [hn] at ha
          cases ha
        exact ⟨a, by rw [Function.update_of_ne han, ha]⟩
      · rintro ⟨a, ha⟩
        have han : a ≠ n := by
          rintro rfl
          rw [Function.update_self] at ha
          exact hk (Option.some.inj ha).symm
        exact ⟨a, by rwa [Function.update_of_ne han] at ha⟩

theorem Owned.free (o : Owned holds live) (hn : holds n = some h) :
    Owned (Function.update holds n none) (Function.update live h false) where
  inj := by
    intro a b k ha hb
    have hne : ∀ c, Function.update holds n none c = some k → c ≠ n ∧ holds c = some k := by
      intro c hc
      have hcn : c ≠ n := by
        rintro rfl
        rw [Function.update_self] at hc
        cases hc
      exact ⟨hcn, by rwa [Function.update_of_ne hcn] at hc⟩
    exact o.inj a b k (hne a ha).2 (hne b hb).2
  live_iff := by
    intro k
    by_cases hk : k = h
    · subst hk
      rw [Function.update_self]
      refine iff_of_false Bool.false_ne_true ?_
      rintro ⟨a, ha⟩
      by_cases han : a = n
      · subst han
        rw [Function.update_self] at ha
        cases ha
      · rw [Function.update_of_ne han] at ha
        exact han (o.inj a n k ha hn)
    · rw [Function.update_of_ne hk, o.live_iff]
      refine exists_congr fun a => ?_
      by_cases han : a = n
      · subst han
        rw [Function.update_self, hn]
        simpa using Ne.symm hk
      · rw [Function.update_of_ne han]

/-- A handle goes over from `m` to `n`. -/
theorem Owned.transfer (o : Owned holds live) (hn : holds n = none) (hm : holds m = some h) :
    Owned (Function.update (Function.update holds m none) n (some h)) live := by
  have hnm : n ≠ m := by
    rintro rfl
    rw [hn] at hm
    cases hm
  have hout :=
    (o.free hm).acquire (n := n) (by rw [Function.update_of_ne hnm, hn]) (Function.update_self h false live)
  rwa [Function.update_idem, ← o.held_live hm, Function.update_eq_self] at hout

end

end Handles
