import Mathlib.Order.RelClasses
import Mathlib.Order.RelIso.Basic
import Mathlib.Data.List.Pairwise

/-!
# Ordered maps

A map whose entries are kept in the order of their keys, as a search tree
presents them to its iterators: `entries` is the traversal from `begin()` to
`end()`. The comparison `lt` is a parameter, so the same map serves ascending
and descending keys.
-/

/-- A finite map, listed by increasing key in the strict order `lt`. -/
structure OrdMap (K V : Type*) (lt : K → K → Prop) where
  entries : List (K × V)
  sorted : entries.Pairwise fun a b => lt a.1 b.1

namespace OrdMap

variable {K V : Type*}

section Raw
variable (lt : K → K → Prop) [DecidableRel lt]

def findL (k : K) : List (K × V) → Option V
  | [] => none
  | (k', v) :: m => if lt k k' then none else if lt k' k then findL k m else some v

/-- Replace what is stored at `k` (`none`: nothing) by what `f` makes of it. -/
def alterL (k : K) (f : Option V → Option V) : List (K × V) → List (K × V)
  | [] => ((f none).map (Prod.mk k)).toList
  | (k', v) :: m =>
    if lt k k' then ((f none).map (Prod.mk k)).toList ++ (k', v) :: m
    else if lt k' k then (k', v) :: alterL k f m
    else ((f (some v)).map (Prod.mk k')).toList ++ m

end Raw

theorem mem_toList_map {o : Option V} {k : K} {p : K × V} :
    p ∈ (o.map (Prod.mk k)).toList ↔ ∃ w, o = some w ∧ p = (k, w) := by
  cases o with
  | none => simp
  | some w => simp

theorem pairwise_toList_append {lt : K → K → Prop} {k : K} {o : Option V} {m : List (K × V)}
    (hs : m.Pairwise fun a b => lt a.1 b.1) (h : ∀ p ∈ m, lt k p.1) :
    ((o.map (Prod.mk k)).toList ++ m).Pairwise fun a b => lt a.1 b.1 := by
  cases o with
  | none => simpa using hs
  | some w => exact List.pairwise_cons.mpr ⟨h, hs⟩

section Ordered
variable {lt : K → K → Prop} [IsStrictTotalOrder K lt]

theorem lt_irrefl (k : K) : ¬ lt k k := irrefl_of lt k

theorem lt_ne {a b : K} (h : lt a b) : a ≠ b := fun e => lt_irrefl b (e ▸ h)

theorem lt_trans' {a b c : K} (h : lt a b) (h' : lt b c) : lt a c := trans_of lt h h'

theorem eq_of_not_lt {a b : K} (h : ¬ lt a b) (h' : ¬ lt b a) : a = b := by
  rcases trichotomous_of lt a b with h₁ | h₁ | h₁
  · exact absurd h₁ h
  · exact h₁
  · exact absurd h₁ h'

theorem lt_of_lt_head {k k' : K} {v : V} {m : List (K × V)}
    (hs : ((k', v) :: m).Pairwise fun a b => lt a.1 b.1) (h : lt k k') {p : K × V} (hp : p ∈ (k', v) :: m) :
    lt k p.1 := by
  rcases List.mem_cons.mp hp with rfl | hp
  · exact h
  · exact lt_trans' h ((List.pairwise_cons.mp hs).1 p hp)

variable [DecidableRel lt]

theorem mem_iff_findL {k : K} {v : V} : ∀ {m : List (K × V)},
    (m.Pairwise fun a b => lt a.1 b.1) → ((k, v) ∈ m ↔ findL lt k m = some v)
  | [], _ => by simp [findL]
  | (k', v') :: m, hs => by
    simp only [findL]
    split
    · rename_i h
      simp only [reduceCtorEq, iff_false]
      exact fun hp => lt_irrefl k (lt_of_lt_head hs h hp)
    · rename_i h
      split
      · rename_i h'
        rw [← mem_iff_findL hs.of_cons, List.mem_cons]
        exact or_iff_right fun e => lt_ne h' (Prod.mk.inj e).1.symm
      · rename_i h'
        obtain rfl := eq_of_not_lt h h'
        simp only [List.mem_cons, Prod.mk.injEq, true_and, Option.some.injEq]
        constructor
        · rintro (e | hp)
          · exact e.symm
          · exact absurd ((List.pairwise_cons.mp hs).1 _ hp) (lt_irrefl k)
        · exact fun e => Or.inl e.symm

theorem mem_alterL (k : K) (f : Option V → Option V) {p : K × V} : ∀ {m : List (K × V)},
    (m.Pairwise fun a b => lt a.1 b.1) →
      (p ∈ alterL lt k f m ↔ (p ∈ m ∧ p.1 ≠ k) ∨ ∃ w, f (findL lt k m) = some w ∧ p = (k, w))
  | [], _ => by simp only [alterL, mem_toList_map, findL, List.not_mem_nil, false_and, false_or]
  | (k', v) :: m, hs => by
    simp only [alterL, findL]
    split
    · rename_i h
      rw [List.mem_append, mem_toList_map, or_comm]
      refine or_congr_left (iff_self_and.mpr fun hp => ?_)
      exact (lt_ne (lt_of_lt_head hs h hp)).symm
    · rename_i h
      split
      · rename_i h'
        rw [List.mem_cons, mem_alterL k f hs.of_cons, List.mem_cons, or_and_right, or_assoc]
        refine or_congr_left (iff_self_and.mpr ?_)
        rintro rfl; exact lt_ne h'
      · rename_i h'
        obtain rfl := eq_of_not_lt h h'
        rw [List.mem_append, mem_toList_map, or_comm, List.mem_cons, or_and_right]
        refine or_congr_left ⟨fun hp => Or.inr ⟨hp, ?_⟩, ?_⟩
        · exact (lt_ne ((List.pairwise_cons.mp hs).1 p hp)).symm
        · rintro (⟨rfl, hne⟩ | ⟨hp, _⟩)
          · exact absurd rfl hne
          · exact hp

/-- Where an alteration takes place: between a part before `k` and a part after it. -/
theorem alterL_split (k : K) (f : Option V → Option V) : ∀ (m : List (K × V)), ∃ l r,
    m = l ++ ((findL lt k m).map (Prod.mk k)).toList ++ r ∧
      alterL lt k f m = l ++ ((f (findL lt k m)).map (Prod.mk k)).toList ++ r
  | [] => ⟨[], [], by simp [findL], by simp [alterL, findL]⟩
  | (k', v) :: m => by
    simp only [alterL, findL]
    split
    · exact ⟨[], (k', v) :: m, by simp, by simp⟩
    · rename_i h
      split
      · obtain ⟨l, r, h₁, h₂⟩ := alterL_split k f m
        exact ⟨(k', v) :: l, r, by rw [List.cons_append, List.cons_append, ← h₁], by rw [h₂]; rfl⟩
      · rename_i h'
        obtain rfl := eq_of_not_lt h h'
        exact ⟨[], m, by simp, by simp⟩

theorem sorted_alterL (k : K) (f : Option V → Option V) : ∀ {m : List (K × V)},
    (m.Pairwise fun a b => lt a.1 b.1) → (alterL lt k f m).Pairwise fun a b => lt a.1 b.1
  | [], _ => by
    unfold alterL
    cases f none with
    | none => exact List.Pairwise.nil
    | some w => exact List.pairwise_singleton _ _
  | (k', v) :: m, hs => by
    simp only [alterL]
    split
    · rename_i h
      exact pairwise_toList_append hs fun p hp => lt_of_lt_head hs h hp
    · rename_i h
      split
      · rename_i h'
        refine List.pairwise_cons.mpr ⟨fun p hp => ?_, sorted_alterL k f hs.of_cons⟩
        rcases (mem_alterL k f hs.of_cons).mp hp with ⟨hp, _⟩ | ⟨w, _, rfl⟩
        · exact (List.pairwise_cons.mp hs).1 p hp
        · exact h'
      · exact pairwise_toList_append hs.of_cons (List.pairwise_cons.mp hs).1

end Ordered

/-! ## The map -/

section
variable {lt : K → K → Prop}

def empty : OrdMap K V lt := ⟨[], List.Pairwise.nil⟩

def eraseBegin (m : OrdMap K V lt) : OrdMap K V lt := ⟨m.entries.tail, m.sorted.tail⟩

def setBegin (m : OrdMap K V lt) (v : V) : OrdMap K V lt where
  entries := match m.entries with
    | [] => []
    | p :: l => (p.1, v) :: l
  sorted := by
    have hs := m.sorted
    cases h : m.entries with
    | nil => exact List.Pairwise.nil
    | cons p l =>
      rw [h] at hs
      exact List.pairwise_cons.mpr ⟨(List.pairwise_cons.mp hs).1, hs.of_cons⟩

theorem lt_of_head? {m : OrdMap K V lt} {e e' : K × V} (h : m.entries.head? = some e) (he : e' ∈ m.entries) :
    e' = e ∨ lt e.1 e'.1 := by
  obtain ⟨l, hl⟩ := List.head?_eq_some_iff.mp h
  have hs := m.sorted
  rw [hl] at hs he
  rcases List.mem_cons.mp he with heq | hmem
  · exact .inl heq
  · exact .inr ((List.pairwise_cons.mp hs).1 e' hmem)

theorem lt_of_getLast? {m : OrdMap K V lt} {e e' : K × V} (h : m.entries.getLast? = some e) (he : e' ∈ m.entries) :
    e' = e ∨ lt e'.1 e.1 := by
  obtain ⟨l, hl⟩ := List.getLast?_eq_some_iff.mp h
  have hs := m.sorted
  rw [hl] at hs he
  rcases List.mem_append.mp he with hmem | heq
  · exact .inr ((List.pairwise_append.mp hs).2.2 e' hmem e (List.mem_singleton_self e))
  · exact .inl (List.mem_singleton.mp heq)

theorem entries_eraseBegin {m : OrdMap K V lt} {p : K × V} {l : List (K × V)} (h : m.entries = p :: l) :
    m.eraseBegin.entries = l := by simp [eraseBegin, h]

theorem entries_setBegin {m : OrdMap K V lt} {p : K × V} {l : List (K × V)} (h : m.entries = p :: l) (v : V) :
    (m.setBegin v).entries = (p.1, v) :: l := by simp [setBegin, h]

variable [DecidableRel lt]

def find? (m : OrdMap K V lt) (k : K) : Option V := findL lt k m.entries

variable [IsStrictTotalOrder K lt]

/-- Insert, overwrite or erase at a key, according to `f`. -/
def alter (m : OrdMap K V lt) (k : K) (f : Option V → Option V) : OrdMap K V lt :=
  ⟨alterL lt k f m.entries, sorted_alterL k f m.sorted⟩

theorem mem_entries {m : OrdMap K V lt} {k : K} {v : V} : (k, v) ∈ m.entries ↔ m.find? k = some v :=
  mem_iff_findL m.sorted

theorem mem_alter {m : OrdMap K V lt} {k : K} {f : Option V → Option V} {p : K × V} :
    p ∈ (m.alter k f).entries ↔ (p ∈ m.entries ∧ p.1 ≠ k) ∨ ∃ w, f (m.find? k) = some w ∧ p = (k, w) :=
  mem_alterL k f m.sorted

theorem ext_find? {m n : OrdMap K V lt} (h : ∀ k, m.find? k = n.find? k) : m.entries = n.entries := by
  have hnodup : ∀ m : OrdMap K V lt, m.entries.Nodup := by
    intro m
    apply m.sorted.imp
    intro a b hlt heq
    exact lt_irrefl b.1 (heq ▸ hlt)
  have hperm : m.entries.Perm n.entries := by
    rw [List.perm_ext_iff_of_nodup (hnodup m) (hnodup n)]
    intro e
    rw [mem_entries, mem_entries, h]
  refine hperm.eq_of_pairwise (fun a b _ _ hab hba => ?_) m.sorted n.sorted
  exact absurd (lt_trans' hab hba) (lt_irrefl a.1)

theorem entries_alter_split (m : OrdMap K V lt) (k : K) (f : Option V → Option V) : ∃ l r,
    m.entries = l ++ ((m.find? k).map (Prod.mk k)).toList ++ r ∧
      (m.alter k f).entries = l ++ ((f (m.find? k)).map (Prod.mk k)).toList ++ r :=
  alterL_split k f m.entries

@[simp] theorem find?_alter_self (m : OrdMap K V lt) (k : K) (f : Option V → Option V) :
    (m.alter k f).find? k = f (m.find? k) := by
  apply Option.ext
  intro v
  rw [← mem_entries, mem_alter]
  simp

theorem find?_alter_of_ne (m : OrdMap K V lt) {k k' : K} (h : k' ≠ k) (f : Option V → Option V) :
    (m.alter k f).find? k' = m.find? k' := by
  apply Option.ext
  intro v
  rw [← mem_entries, mem_alter, ← mem_entries]
  simp [h]

end

/-! ## Renaming keys and values -/

section
variable {K' V' : Type*} {lt : K → K → Prop} {lt' : K' → K' → Prop}

theorem eq_of_entries {m n : OrdMap K V lt} (h : m.entries = n.entries) : m = n := by
  cases m; cases n; cases h; rfl

/-- Rename the keys along an embedding of their orders, and the values. -/
def map (f : lt ↪r lt') (g : V → V') (m : OrdMap K V lt) : OrdMap K' V' lt' where
  entries := m.entries.map (Prod.map f g)
  sorted := List.pairwise_map.mpr (m.sorted.imp fun h => f.map_rel_iff.mpr h)

@[simp] theorem entries_map (f : lt ↪r lt') (g : V → V') (m : OrdMap K V lt) :
    (m.map f g).entries = m.entries.map (Prod.map f g) := rfl

theorem map_eraseBegin (f : lt ↪r lt') (g : V → V') (m : OrdMap K V lt) :
    (m.map f g).eraseBegin = m.eraseBegin.map f g := by
  apply eq_of_entries
  cases h : m.entries <;> simp [eraseBegin, h]

theorem map_setBegin (f : lt ↪r lt') (g : V → V') (m : OrdMap K V lt) (v : V) :
    (m.map f g).setBegin (g v) = (m.setBegin v).map f g := by
  apply eq_of_entries
  cases h : m.entries <;> simp [setBegin, h]

variable [DecidableRel lt] [DecidableRel lt']

theorem alterL_map (f : lt ↪r lt') (g : V → V') (k : K) {h : Option V → Option V} {h' : Option V' → Option V'}
    (hh : ∀ o, h' (o.map g) = (h o).map g) (m : List (K × V)) :
    alterL lt' (f k) h' (m.map (Prod.map f g)) = (alterL lt k h m).map (Prod.map f g) := by
  have hn := hh none
  induction m with
  | nil => cases ho : h none <;> simp_all [alterL]
  | cons p m ih =>
    obtain ⟨k', v⟩ := p
    have hv := hh (some v)
    simp only [List.map_cons, Prod.map_apply, alterL, f.map_rel_iff]
    split
    · cases ho : h none <;> simp_all
    · split
      · simp [ih]
      · cases ho : h (some v) <;> simp_all

variable [IsStrictTotalOrder K lt] [IsStrictTotalOrder K' lt']

theorem find?_map (f : lt ↪r lt') (g : V → V') (m : OrdMap K V lt) (k : K) :
    (m.map f g).find? (f k) = (m.find? k).map g := by
  apply Option.ext
  intro v
  rw [← mem_entries, entries_map, Option.map_eq_some_iff, List.mem_map]
  constructor
  · rintro ⟨⟨k', w⟩, hm, he⟩
    obtain ⟨hk, rfl⟩ := Prod.mk.inj he
    obtain rfl := f.injective hk
    exact ⟨w, mem_entries.mp hm, rfl⟩
  · rintro ⟨w, hw, rfl⟩
    exact ⟨(k, w), mem_entries.mpr hw, rfl⟩

theorem map_alter (f : lt ↪r lt') (g : V → V') (k : K) {h : Option V → Option V} {h' : Option V' → Option V'}
    (hh : ∀ o, h' (o.map g) = (h o).map g) (m : OrdMap K V lt) :
    (m.map f g).alter (f k) h' = (m.alter k h).map f g :=
  eq_of_entries (alterL_map f g k hh m.entries)

end

end OrdMap
