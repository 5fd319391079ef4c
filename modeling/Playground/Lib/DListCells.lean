import Mathlib.Data.Finset.Card
import Mathlib.Data.Finset.Range
import Playground.Lib.DList
import Playground.Lib.Loop

/-!
# The cells that are allocated

Linking allocates nothing and frees nothing; `new` allocates one cell, at an
address above all others, and `delete` frees one. `Accounts` keeps the books
of one owner, who counts what it has: the other cells of the heap are as many
after it as before.
-/

namespace DList

section
variable {D : Type*}

/-- No cell of the heap is at `n` or above. -/
def Below (n : Nat) (h : Heap D) : Prop := ∀ a, (h a).isSome → a < n

def allocated (n : Nat) (h : Heap D) : Finset Nat := (Finset.range n).filter fun a => (h a).isSome

theorem mem_allocated {n : Nat} {h : Heap D} {a : Nat} : a ∈ allocated n h ↔ a < n ∧ (h a).isSome := by
  simp [allocated]

theorem mem_allocated_of_below {n : Nat} {h : Heap D} (hb : Below n h) {a : Nat} :
    a ∈ allocated n h ↔ (h a).isSome := by
  rw [mem_allocated]
  exact and_iff_right_of_imp (hb a)

/-! ## Linking -/

/-- The same cells, with other contents perhaps. -/
def SameCells (h h' : Heap D) : Prop := ∀ a, (h' a).isSome = (h a).isSome

theorem sameCells_modify {h h' : Heap D} {a : Nat} {f : Cell D → Cell D} (hm : modify h a f = some h') :
    SameCells h h' := by
  obtain ⟨c, hc, rfl⟩ := Option.map_eq_some_iff.mp hm
  intro b
  by_cases hb : b = a
  · rw [hb, Function.update_self, hc]
    rfl
  · rw [Function.update_of_ne hb]

theorem sameCells_linkNext {h h' : Heap D} {p x : Option Nat} (hl : linkNext h p x = some h') : SameCells h h' := by
  cases p with
  | none =>
    cases hl
    exact fun _ => rfl
  | some a => exact sameCells_modify hl

theorem sameCells_linkPrev {h h' : Heap D} {p x : Option Nat} (hl : linkPrev h p x = some h') : SameCells h h' := by
  cases p with
  | none =>
    cases hl
    exact fun _ => rfl
  | some a => exact sameCells_modify hl

/-! ## Accounts -/

/-- From a heap `h` in which it has `k` cells, an owner comes to `h'` in which it has `k'`. The addresses that were
never used begin at `n` and at `n'`. -/
structure Accounts (n : Nat) (h : Heap D) (k : Nat) (n' : Nat) (h' : Heap D) (k' : Nat) : Prop where
  below : Below n h → Below n' h'
  count : Below n h → (allocated n' h').card + k = (allocated n h).card + k'

namespace Accounts

variable {n n' n'' k k' k'' : Nat} {h h' h'' : Heap D}

theorem refl (n : Nat) (h : Heap D) (k : Nat) : Accounts n h k n h k := ⟨id, fun _ => rfl⟩

theorem trans (h₁ : Accounts n h k n' h' k') (h₂ : Accounts n' h' k' n'' h'' k'') : Accounts n h k n'' h'' k'' where
  below := fun hb => h₂.below (h₁.below hb)
  count := by
    intro hb
    have hcount₁ := h₁.count hb
    have hcount₂ := h₂.count (h₁.below hb)
    omega

theorem same (hs : SameCells h h') : Accounts n h k n h' k where
  below := fun hb a ha => hb a (hs a ▸ ha)
  count := by
    intro _
    have heq : allocated n h' = allocated n h := by
      apply Finset.filter_congr
      intro a _
      rw [hs a]
    rw [heq]

theorem new (n : Nat) (h : Heap D) (k : Nat) (c : Cell D) :
    Accounts n h k (n + 1) (Function.update h n (some c)) (k + 1) where
  below := by
    intro hb a ha
    by_cases han : a = n
    · omega
    · rw [Function.update_of_ne han] at ha
      exact Nat.lt_succ_of_lt (hb a ha)
  count := by
    intro _
    have heq : allocated (n + 1) (Function.update h n (some c)) = insert n (allocated n h) := by
      ext a
      rw [mem_allocated, Finset.mem_insert, mem_allocated]
      by_cases han : a = n
      · simp [han]
      · rw [Function.update_of_ne han]
        simp only [han, false_or, and_congr_left_iff]
        omega
    have hn : n ∉ allocated n h := by simp [mem_allocated]
    rw [heq, Finset.card_insert_of_notMem hn]
    omega

theorem delete {a : Nat} (ha : (h a).isSome) (hk : 0 < k) :
    Accounts n h k n (Function.update h a none) (k - 1) where
  below := by
    intro hb b hb'
    by_cases hba : b = a
    · simp [hba] at hb'
    · rw [Function.update_of_ne hba] at hb'
      exact hb b hb'
  count := by
    intro hb
    have heq : allocated n (Function.update h a none) = (allocated n h).erase a := by
      ext b
      rw [mem_allocated, Finset.mem_erase, mem_allocated]
      by_cases hba : b = a
      · simp [hba]
      · rw [Function.update_of_ne hba]
        simp [hba]
    have hmem : a ∈ allocated n h := (mem_allocated_of_below hb).mpr ha
    have hpos := Finset.card_pos.mpr ⟨a, hmem⟩
    rw [heq, Finset.card_erase_of_mem hmem]
    omega

end Accounts

/-! ## Freeing a list -/

theorem Seg.isSome {h : Heap D} : ∀ {l : List (Nat × D)} {p n : Option Nat}, Seg h p n l →
    ∀ a ∈ l.map Prod.fst, (h a).isSome
  | [], _, _, _, a, ha => by simp at ha
  | (b, d) :: l, _, _, ⟨hc, hs⟩, a, ha => by
    rcases List.mem_cons.mp ha with rfl | ha
    · simp [hc]
    · exact hs.isSome a ha

/-- `while (head) { tmp = head; head = head->next; delete tmp; }`, once. -/
def freeBody : Heap D × Option Nat → Loop.Outcome (Heap D × Option Nat)
  | (_, none) => .exit
  | (h, some tmp) =>
    match h tmp with
    | some c => .next (Function.update h tmp none, c.next)
    | none => .fault

theorem run_free {h : Heap D} {l : List (Nat × D)} {p : Option Nat} (hs : Seg h p none l)
    (hnd : (l.map Prod.fst).Nodup) {rounds : Nat} (hr : l.length < rounds) (n : Nat) :
    ∃ h', Loop.run freeBody rounds (h, first l) = some (h', none) ∧ Accounts n h l.length n h' 0 ∧
      (∀ a ∈ l.map Prod.fst, h' a = none) ∧ ∀ a, a ∉ l.map Prod.fst → h' a = h a := by
  induction l generalizing h p rounds with
  | nil =>
    obtain ⟨rounds, rfl⟩ := Nat.exists_eq_add_one.mpr hr
    exact ⟨h, Loop.run_exit rfl rounds, .refl n h 0, by simp, fun _ _ => rfl⟩
  | cons x l ih =>
    obtain ⟨a, d⟩ := x
    obtain ⟨hc, hs⟩ := hs
    obtain ⟨ha, hnd⟩ := List.nodup_cons.mp hnd
    obtain ⟨rounds, rfl⟩ := Nat.exists_eq_add_one.mpr (Nat.zero_lt_of_lt hr)
    obtain ⟨h', hrun, hacc, hfreed, hrest⟩ := ih (hs.update ha none) hnd (Nat.lt_of_succ_lt_succ hr)
    have hbody : freeBody (h, first ((a, d) :: l)) = .next (Function.update h a none, first l) := by
      have hcell : h a = some ⟨d, p, first l⟩ := by simpa using hc
      simp [freeBody, hcell]
    refine ⟨h', (Loop.run_next hbody rounds).trans hrun, ?_, fun b hb => ?_, fun b hb => ?_⟩
    · exact (Accounts.delete (by simp [hc]) (Nat.succ_pos _)).trans hacc
    · rcases List.mem_cons.mp hb with rfl | hb
      · rw [hrest b ha, Function.update_self]
      · exact hfreed b hb
    · rw [List.map_cons, List.mem_cons, not_or] at hb
      rw [hrest b hb.2, Function.update_of_ne hb.1]

end

end DList
