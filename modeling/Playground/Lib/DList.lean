import Mathlib.Data.List.Basic
import Mathlib.Data.List.Induction
import Mathlib.Logic.Function.Basic

/-!
# Doubly linked lists in a heap

Cells with a `prev` and a `next` pointer, and segments of cells linked both
ways (`Seg`). A segment names the addresses of its cells, so what is written
outside it leaves it as it is. Relinking the end of a segment (`linkNext`,
`linkPrev`) is all that insertion and removal anywhere in a list consist of.
-/

namespace DList

structure Cell (D : Type*) where
  data : D
  prev : Option Nat
  next : Option Nat

abbrev Heap (D : Type*) := Nat → Option (Cell D)

section
variable {D : Type*}

/-- Writing to a cell; a dangling address faults. -/
def modify (h : Heap D) (a : Nat) (f : Cell D → Cell D) : Option (Heap D) :=
  (h a).map fun c => Function.update h a (some (f c))

/-- `if (p) p->next = x`. -/
def linkNext (h : Heap D) (p x : Option Nat) : Option (Heap D) :=
  match p with
  | none => some h
  | some a => modify h a fun c => { c with next := x }

/-- `if (p) p->prev = x`. -/
def linkPrev (h : Heap D) (p x : Option Nat) : Option (Heap D) :=
  match p with
  | none => some h
  | some a => modify h a fun c => { c with prev := x }

theorem modify_of {h : Heap D} {a : Nat} {c : Cell D} (hc : h a = some c) (f : Cell D → Cell D) :
    modify h a f = some (Function.update h a (some (f c))) := by simp [modify, hc]

/-! ## Ends of a list of cells -/

def first (l : List (Nat × D)) : Option Nat := l.head?.map Prod.fst

def last (l : List (Nat × D)) : Option Nat := l.getLast?.map Prod.fst

@[simp] theorem first_nil : first ([] : List (Nat × D)) = none := rfl

@[simp] theorem first_cons (x : Nat × D) (l : List (Nat × D)) : first (x :: l) = some x.1 := rfl

@[simp] theorem last_nil : last ([] : List (Nat × D)) = none := rfl

@[simp] theorem last_snoc (l : List (Nat × D)) (x : Nat × D) : last (l ++ [x]) = some x.1 := by simp [last]

theorem first_append (l₁ l₂ : List (Nat × D)) : first (l₁ ++ l₂) = (first l₁).or (first l₂) := by
  cases l₁ <;> simp [first]

theorem last_append (l₁ l₂ : List (Nat × D)) : last (l₁ ++ l₂) = (last l₂).or (last l₁) := by
  rcases List.eq_nil_or_concat l₂ with rfl | ⟨l, x, rfl⟩
  · simp
  · rw [List.concat_eq_append, ← List.append_assoc, last_snoc, last_snoc, Option.some_or]

theorem last_cons (x : Nat × D) (l : List (Nat × D)) : last (x :: l) = (last l).or (some x.1) :=
  last_append [x] l

theorem last_reverse (l : List (Nat × D)) : last l.reverse = first l := by simp [first, last]

theorem last_eq_none {l : List (Nat × D)} : last l = none ↔ l = [] := by simp [last]

/-! ## Segments -/

/-- The cells of `l`, linked both ways; the first points back to `p` and the last on to `n`. -/
def Seg (h : Heap D) : Option Nat → Option Nat → List (Nat × D) → Prop
  | _, _, [] => True
  | p, n, (a, d) :: l => h a = some ⟨d, p, (first l).or n⟩ ∧ Seg h (some a) n l

theorem seg_append (h : Heap D) (n : Option Nat) (l₂ : List (Nat × D)) : ∀ (l₁ : List (Nat × D)) (p : Option Nat),
    Seg h p n (l₁ ++ l₂) ↔ Seg h p ((first l₂).or n) l₁ ∧ Seg h ((last l₁).or p) n l₂
  | [], p => by simp [Seg]
  | (a, d) :: l₁, p => by
    rw [List.cons_append, Seg, Seg, seg_append h n l₂ l₁, first_append, last_cons, Option.or_assoc, Option.or_assoc,
      Option.some_or, and_assoc]

theorem Seg.frame {h h' : Heap D} : ∀ {l : List (Nat × D)} {p n : Option Nat}, Seg h p n l →
    (∀ x ∈ l, h' x.1 = h x.1) → Seg h' p n l
  | [], _, _, _, _ => trivial
  | (a, d) :: _, _, _, ⟨hc, hs⟩, hf =>
    ⟨(hf (a, d) List.mem_cons_self).trans hc, hs.frame fun x hx => hf x (List.mem_cons_of_mem _ hx)⟩

theorem Seg.update {h : Heap D} {l : List (Nat × D)} {p n : Option Nat} (hs : Seg h p n l) {a : Nat}
    (ha : a ∉ l.map Prod.fst) (c : Option (Cell D)) : Seg (Function.update h a c) p n l := by
  refine hs.frame fun x hx => Function.update_of_ne ?_ _ _
  intro heq
  subst heq
  exact ha (List.mem_map_of_mem hx)

theorem Seg.linkNext {h : Heap D} {l : List (Nat × D)} {p n : Option Nat} (hs : Seg h p n l)
    (hnd : (l.map Prod.fst).Nodup) (x : Option Nat) :
    ∃ h', DList.linkNext h (last l) x = some h' ∧ Seg h' p x l ∧ ∀ a, a ∉ l.map Prod.fst → h' a = h a := by
  rcases List.eq_nil_or_concat l with rfl | ⟨l, ⟨a, d⟩, rfl⟩
  · exact ⟨h, rfl, trivial, fun _ _ => rfl⟩
  · rw [List.concat_eq_append] at hs hnd ⊢
    obtain ⟨hl, hc, _⟩ := (seg_append h n [(a, d)] l p).mp hs
    rw [List.map_append, List.nodup_append] at hnd
    have ha : a ∉ l.map Prod.fst := fun ha => hnd.2.2 a ha a (by simp) rfl
    refine ⟨Function.update h a (some ⟨d, (last l).or p, x⟩), ?_, ?_, ?_⟩
    · rw [last_snoc]
      exact modify_of hc _
    · exact (seg_append _ x [(a, d)] l p).mpr ⟨hl.update ha _, by simp [Seg]⟩
    · intro b hb
      refine Function.update_of_ne ?_ _ _
      intro heq
      subst heq
      exact hb (by simp)

theorem Seg.linkPrev {h : Heap D} {l : List (Nat × D)} {p n : Option Nat} (hs : Seg h p n l)
    (hnd : (l.map Prod.fst).Nodup) (x : Option Nat) :
    ∃ h', DList.linkPrev h (first l) x = some h' ∧ Seg h' x n l ∧ ∀ a, a ∉ l.map Prod.fst → h' a = h a := by
  cases l with
  | nil => exact ⟨h, rfl, trivial, fun _ _ => rfl⟩
  | cons y l =>
    obtain ⟨a, d⟩ := y
    obtain ⟨hc, hl⟩ := hs
    have ha : a ∉ l.map Prod.fst := (List.nodup_cons.mp hnd).1
    refine ⟨Function.update h a (some ⟨d, x, (first l).or n⟩), ?_, ?_, ?_⟩
    · exact modify_of hc _
    · exact ⟨Function.update_self .., hl.update ha _⟩
    · intro b hb
      refine Function.update_of_ne ?_ _ _
      intro heq
      subst heq
      exact hb (by simp)

/-! ## Whole lists -/

theorem seg_middle (h : Heap D) (l₁ l₂ : List (Nat × D)) (a : Nat) (d : D) : Seg h none none (l₁ ++ (a, d) :: l₂) ↔
    Seg h none (some a) l₁ ∧ h a = some ⟨d, last l₁, first l₂⟩ ∧ Seg h (some a) none l₂ := by
  rw [seg_append, Seg, first_cons, Option.some_or, Option.or_none, Option.or_none]

/-- Linking the neighbours of a cell past it takes the cell out of the list. -/
theorem Seg.detach {h : Heap D} {l₁ l₂ : List (Nat × D)} {a : Nat} {d : D}
    (hs : Seg h none none (l₁ ++ (a, d) :: l₂)) (hnd : ((l₁ ++ (a, d) :: l₂).map Prod.fst).Nodup) :
    ∃ h₁ h₂, DList.linkNext h (last l₁) (first l₂) = some h₁ ∧ h₁ a = h a ∧
      DList.linkPrev h₁ (first l₂) (last l₁) = some h₂ ∧ Seg h₂ none none (l₁ ++ l₂) ∧
      ∀ b, b ∉ (l₁ ++ l₂).map Prod.fst → h₂ b = h b := by
  obtain ⟨hs₁, _, hs₂⟩ := (seg_middle h l₁ l₂ a d).mp hs
  rw [List.map_append, List.map_cons, List.nodup_append] at hnd
  obtain ⟨hnd₁, hnd₂, hdis⟩ := hnd
  obtain ⟨h₁, he₁, hs₁, hf₁⟩ := hs₁.linkNext hnd₁ (first l₂)
  have hs₂ := hs₂.frame fun x hx => hf₁ x.1 fun hx' =>
    hdis _ hx' _ (List.mem_cons_of_mem _ (List.mem_map_of_mem hx)) rfl
  obtain ⟨h₂, he₂, hs₂, hf₂⟩ := hs₂.linkPrev (List.nodup_cons.mp hnd₂).2 (last l₁)
  have hs₁ := hs₁.frame fun x hx => hf₂ x.1 fun hx' =>
    hdis _ (List.mem_map_of_mem hx) _ (List.mem_cons_of_mem _ hx') rfl
  refine ⟨h₁, h₂, he₁, hf₁ a fun ha => hdis a ha a List.mem_cons_self rfl, he₂, ?_, fun b hb => ?_⟩
  · rw [seg_append, Option.or_none, Option.or_none]
    exact ⟨hs₁, hs₂⟩
  · rw [List.map_append, List.mem_append, not_or] at hb
    rw [hf₂ b hb.2, hf₁ b hb.1]

/-- Linking the neighbours of a place to a cell that already points to them puts the cell there. -/
theorem Seg.attach {h : Heap D} {l₁ l₂ : List (Nat × D)} {a : Nat} {d : D} (hs : Seg h none none (l₁ ++ l₂))
    (hnd : ((l₁ ++ (a, d) :: l₂).map Prod.fst).Nodup) (hc : h a = some ⟨d, last l₁, first l₂⟩) :
    ∃ h₁ h₂, DList.linkNext h (last l₁) (some a) = some h₁ ∧ DList.linkPrev h₁ (first l₂) (some a) = some h₂ ∧
      Seg h₂ none none (l₁ ++ (a, d) :: l₂) ∧ ∀ b, b ∉ (l₁ ++ l₂).map Prod.fst → h₂ b = h b := by
  obtain ⟨hs₁, hs₂⟩ := (seg_append h none l₂ l₁ none).mp hs
  rw [Option.or_none] at hs₁ hs₂
  rw [List.map_append, List.map_cons, List.nodup_append] at hnd
  obtain ⟨hnd₁, hnd₂, hdis⟩ := hnd
  obtain ⟨ha, hnd₂⟩ := List.nodup_cons.mp hnd₂
  obtain ⟨h₁, he₁, hs₁, hf₁⟩ := hs₁.linkNext hnd₁ (some a)
  have hs₂ := hs₂.frame fun x hx => hf₁ x.1 fun hx' =>
    hdis _ hx' _ (List.mem_cons_of_mem _ (List.mem_map_of_mem hx)) rfl
  obtain ⟨h₂, he₂, hs₂, hf₂⟩ := hs₂.linkPrev hnd₂ (some a)
  have hs₁ := hs₁.frame fun x hx => hf₂ x.1 fun hx' =>
    hdis _ (List.mem_map_of_mem hx) _ (List.mem_cons_of_mem _ hx') rfl
  have ha₁ : a ∉ l₁.map Prod.fst := fun hm => hdis a hm a List.mem_cons_self rfl
  refine ⟨h₁, h₂, he₁, he₂, (seg_middle h₂ l₁ l₂ a d).mpr ⟨hs₁, ?_, hs₂⟩, fun b hb => ?_⟩
  · rw [hf₂ a ha, hf₁ a ha₁, hc]
  · rw [List.map_append, List.mem_append, not_or] at hb
    rw [hf₂ b hb.2, hf₁ b hb.1]

theorem Seg.attachFirst {h : Heap D} {l : List (Nat × D)} {a : Nat} {d : D} (hs : Seg h none none l)
    (hnd : (((a, d) :: l).map Prod.fst).Nodup) (hc : h a = some ⟨d, none, first l⟩) :
    ∃ h', DList.linkPrev h (first l) (some a) = some h' ∧ Seg h' none none ((a, d) :: l) ∧
      ∀ b, b ∉ l.map Prod.fst → h' b = h b := by
  have hnil : Seg h none none ([] ++ l) := hs
  obtain ⟨h₁, h₂, he₁, he₂, hs', hf⟩ := hnil.attach hnd hc
  obtain rfl := Option.some.inj he₁
  exact ⟨h₂, he₂, hs', hf⟩

theorem Seg.setData {h : Heap D} {l₁ l₂ : List (Nat × D)} {a : Nat} {d : D}
    (hs : Seg h none none (l₁ ++ (a, d) :: l₂)) (hnd : ((l₁ ++ (a, d) :: l₂).map Prod.fst).Nodup) (f : D → D) :
    ∃ h', modify h a (fun c => { c with data := f c.data }) = some h' ∧ Seg h' none none (l₁ ++ (a, f d) :: l₂) ∧
      ∀ b, b ≠ a → h' b = h b := by
  obtain ⟨hs₁, hc, hs₂⟩ := (seg_middle h l₁ l₂ a d).mp hs
  rw [List.map_append, List.map_cons, List.nodup_append] at hnd
  obtain ⟨_, hnd₂, hdis⟩ := hnd
  refine ⟨_, modify_of hc _, (seg_middle _ l₁ l₂ a (f d)).mpr ⟨hs₁.update ?_ _, Function.update_self ..,
    hs₂.update ?_ _⟩, ?_⟩
  · exact fun ha => hdis a ha a List.mem_cons_self rfl
  · exact (List.nodup_cons.mp hnd₂).1
  · exact fun b hb => Function.update_of_ne hb _ _

/-! ## Traversals -/

/-- Following `link` from `s` visits the cells of `l` and then arrives at `e`. -/
def Path (link : Cell D → Option Nat) (h : Heap D) : Option Nat → List (Nat × D) → Option Nat → Prop
  | s, [], e => s = e
  | s, (a, d) :: l, e => s = some a ∧ ∃ c, h a = some c ∧ c.data = d ∧ Path link h (link c) l e

theorem Path.unique {link : Cell D → Option Nat} {h : Heap D} : ∀ {l l' : List (Nat × D)} {s : Option Nat},
    Path link h s l none → Path link h s l' none → l = l'
  | [], [], _, _, _ => rfl
  | [], (_, _) :: _, _, rfl, ⟨he, _⟩ => nomatch he
  | (_, _) :: _, [], _, ⟨he, _⟩, hs => nomatch he.symm.trans hs
  | (_, _) :: _, (_, _) :: _, _, ⟨rfl, _, hc, rfl, hp⟩, ⟨he, _, hc', rfl, hp'⟩ => by
    cases he
    obtain rfl := Option.some.inj (hc.symm.trans hc')
    rw [hp.unique hp']

theorem Seg.forward {h : Heap D} : ∀ {l : List (Nat × D)} {p n : Option Nat}, Seg h p n l →
    Path Cell.next h ((first l).or n) l n
  | [], _, _, _ => rfl
  | (_, _) :: _, _, _, ⟨hc, hs⟩ => ⟨rfl, _, hc, rfl, hs.forward⟩

theorem Seg.backward {h : Heap D} {l : List (Nat × D)} {p n : Option Nat} (hs : Seg h p n l) :
    Path Cell.prev h ((last l).or p) l.reverse p := by
  induction l using List.reverseRecOn generalizing n with
  | nil => rfl
  | append_singleton l x ih =>
    obtain ⟨hl, hc, _⟩ := (seg_append h n [x] l p).mp hs
    rw [List.reverse_append, last_snoc]
    exact ⟨rfl, _, hc, rfl, ih hl⟩

end

end DList
