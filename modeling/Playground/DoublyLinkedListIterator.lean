import Playground.DoublyLinkedListSound

/-!
# Iterators over a doubly linked list

The nodes can be walked in both directions, from the first one and from the
last one. `end()` is not the way in to the last one: it is null.
-/

namespace Playground.DoublyLinkedList

open DList

section
variable {T : Type} {heap : Heap T}

/-- Going back from `end()` is going forth from `begin()`, the other way around. -/
def Bidirectional (heap : Heap T) (l : DoublyLinkedList) : Prop :=
  ∃ n values, walkForward heap n (begin l) = some (values, «end» l) ∧
    walkBackward heap n («end» l) = some (values.reverse, begin l)

theorem values_length (ns : List (Nat × T)) : (values ns).length = ns.length := List.length_map ..

theorem walkForward_seg {p : Option Nat} {ns : List (Nat × T)} (h : Seg heap p none ns) :
    walkForward heap ns.length (first ns) = some (values ns, none) := by
  induction ns generalizing p with
  | nil => rfl
  | cons x ns ih =>
    obtain ⟨hc, hs⟩ := h
    rw [Option.or_none] at hc
    simp [walkForward, Iterator.deref, Iterator.increment, hc, ih hs]

theorem walkBackward_seg {n : Option Nat} {ns : List (Nat × T)} {x : Nat × T} (h : Seg heap none n (ns ++ [x])) :
    walkBackward heap ns.length (some x.1) = some ((values ns).reverse, first (ns ++ [x])) := by
  induction ns using List.reverseRecOn generalizing n x with
  | nil => rfl
  | append_singleton ns y ih =>
    obtain ⟨hs, hx, -⟩ := (seg_append heap n [x] (ns ++ [y]) none).mp h
    obtain ⟨-, hy, -⟩ := (seg_append heap _ [y] ns none).mp hs
    rw [last_snoc, Option.some_or] at hx
    have hfirst : first (ns ++ [y] ++ [x]) = first (ns ++ [y]) := by
      rw [first_append (ns ++ [y]) [x]]
      cases ns <;> rfl
    rw [hfirst, List.length_append]
    simp [walkBackward, Iterator.decrement, Iterator.deref, hx, hy, ih hs]

theorem walkBackward_end (n : Nat) (l : DoublyLinkedList) : walkBackward heap (n + 1) («end» l) = none := rfl

theorem bidirectional_iff {m : Memory T} {l : DoublyLinkedList} {ns : List (Nat × T)} (h : Owned m l ns) :
    Bidirectional m.heap l ↔ l.size = 0 := by
  constructor
  · intro ⟨n, vs, hf, hb⟩
    cases n with
    | zero =>
      have hnull : l.head = none := (Prod.mk.inj (Option.some.inj hf)).2
      rw [h.size, h.represents.headNull.mp hnull]
      rfl
    | succ n =>
      rw [walkBackward_end] at hb
      cases hb
  · intro hz
    have hnil : ns = [] := List.eq_nil_of_length_eq_zero (h.size.symm.trans hz)
    have hnull : l.head = none := h.represents.headNull.mpr hnil
    exact ⟨0, [], by rw [begin, hnull]; rfl, by rw [begin, hnull]; rfl⟩

/-- What the iterators of a list do: all that is asked of them, but from the last node and not from `end()`. -/
structure Walks (heap : Heap T) (l : DoublyLinkedList) (seq : List T) : Prop where
  forward : walkForward heap seq.length (begin l) = some (seq, «end» l)
  backward : ∀ rest value, seq = rest ++ [value] → Iterator.deref heap l.tail = some value ∧
    walkBackward heap rest.length l.tail = some (rest.reverse, begin l)

theorem Owned.walks {m : Memory T} {l : DoublyLinkedList} {ns : List (Nat × T)} (h : Owned m l ns) :
    Walks m.heap l (values ns) where
  forward := by
    have hf := walkForward_seg h.seg
    rw [← h.head] at hf
    rw [values_length]
    exact hf
  backward := by
    intro rest value hseq
    rcases List.eq_nil_or_concat ns with rfl | ⟨ns, x, rfl⟩
    · simp [values] at hseq
    · rw [List.concat_eq_append] at h hseq
      rw [values_append] at hseq
      obtain ⟨rfl, hx⟩ := List.append_inj' hseq rfl
      obtain ⟨-, hc, -⟩ := (seg_append m.heap none [x] ns none).mp h.seg
      have hb := walkBackward_seg h.seg
      rw [← h.head] at hb
      rw [h.tail, last_snoc, values_length]
      refine ⟨?_, hb⟩
      simpa [Iterator.deref, hc] using hx

/-- **`end()` is no way in**: after any calls that respect the preconditions, a list can be
walked back from `end()` only if it is empty, though its nodes are linked for it. -/
theorem bidirectional_exec {cs : List (Call T)} {A : Sequences T} (hA : (sequences T).exec cs = some A) :
    ∃ s, (doublyLinkedLists T).exec cs = some s ∧ ∀ x seq, A x = some seq → ∃ l, s.lists x = some l ∧
      Walks s.mem.heap l seq ∧ (Bidirectional s.mem.heap l ↔ l.size = 0) := by
  obtain ⟨s, he, nodes, hr⟩ := doublyLinkedLists_refines.exec hA
  refine ⟨s, he, fun x seq hx => ?_⟩
  rw [hr.live x] at hx
  obtain ⟨l, hl, rfl⟩ := Option.map_eq_some_iff.mp hx
  have ho := hr.owned x l hl
  exact ⟨l, hl, ho.walks, bidirectional_iff ho⟩

end

theorem bidirectional_exec_two :
    ∃ s, (doublyLinkedLists Nat).exec [.construct 0, .pushBack 0 1, .pushBack 0 2] = some s ∧
    ∀ x seq, (Function.update (fun _ => none) 0 (some [1, 2]) : Sequences Nat) x = some seq →
      ∃ l, s.lists x = some l ∧ Walks s.mem.heap l seq ∧ (Bidirectional s.mem.heap l ↔ l.size = 0) := by
  apply bidirectional_exec
  simp [Machine.exec, Machine.execFrom, sequences, Sequences.step]

/-- A list of one element: `--list.end()` faults. -/
theorem end_not_bidirectional : ∃ s l, (doublyLinkedLists Nat).exec [.construct 0, .pushBack 0 1] = some s ∧
    s.lists 0 = some l ∧ l.size = 1 ∧ Iterator.decrement s.mem.heap («end» l) = none ∧
    ¬ Bidirectional s.mem.heap l := by
  refine ⟨_, _, rfl, rfl, rfl, rfl, ?_⟩
  intro ⟨n, vs, hf, hb⟩
  cases n with
  | zero => cases hf
  | succ n => cases hb

end Playground.DoublyLinkedList
