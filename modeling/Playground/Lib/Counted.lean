import Mathlib.Data.Fintype.Card
import Mathlib.Logic.Function.Basic

/-!
# Counted references

Names hold references to handles, any number of names to one handle, and there
may be references elsewhere (`base`). A count is exact when it is the number of
all of them.
-/

namespace Counted

section
variable {N H : Type*} [Fintype N] [DecidableEq H]

/-- How many names hold a handle. -/
def holders (holds : N → Option H) (h : H) : Nat := (Finset.univ.filter fun n => holds n = some h).card

theorem holders_pos_iff {holds : N → Option H} {h : H} : 0 < holders holds h ↔ ∃ n, holds n = some h := by
  rw [holders, Finset.card_pos]
  constructor
  · rintro ⟨n, hn⟩
    exact ⟨n, (Finset.mem_filter.mp hn).2⟩
  · rintro ⟨n, hn⟩
    exact ⟨n, Finset.mem_filter.mpr ⟨Finset.mem_univ n, hn⟩⟩

theorem holders_none (h : H) : holders (fun _ : N => none) h = 0 := by simp [holders]

/-- The names but one, and that one. -/
theorem holders_eq [DecidableEq N] (holds : N → Option H) (n : N) (h : H) :
    holders holds h = ((Finset.univ.erase n).filter fun m => holds m = some h).card +
      if holds n = some h then 1 else 0 := by
  have huniv : holders holds h = ((insert n (Finset.univ.erase n)).filter fun m => holds m = some h).card := by
    rw [Finset.insert_erase (Finset.mem_univ n)]
    rfl
  rw [huniv, Finset.filter_insert]
  split
  · rw [Finset.card_insert_of_notMem (by simp)]
  · rfl

/-- A name lets go of what it holds, and takes hold of something else or of nothing. -/
theorem holders_update [DecidableEq N] (holds : N → Option H) (n : N) (r : Option H) (h : H) :
    holders (Function.update holds n r) h + (if holds n = some h then 1 else 0) =
      holders holds h + if r = some h then 1 else 0 := by
  have hcongr : ((Finset.univ.erase n).filter fun m => Function.update holds n r m = some h) =
      (Finset.univ.erase n).filter fun m => holds m = some h :=
    Finset.filter_congr fun m hm => by rw [Function.update_of_ne (Finset.ne_of_mem_erase hm)]
  rw [holders_eq _ n, holders_eq holds n, Function.update_self, hcongr]
  omega

/-- The count of every handle is the number of its references. -/
def Exact (base : H → Nat) (holds : N → Option H) (count : H → Nat) : Prop :=
  ∀ h, count h = base h + holders holds h

end

end Counted
