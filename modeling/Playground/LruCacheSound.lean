import Playground.LruRecency

/-!
# The LRU cache keeps a recency list

`Rep c l`: the nodes in the heap are a list linked both ways with the entries
`l`, and the map and the counter agree with it. Each operation keeps `Rep` for
the list that the abstract recency list (`recency`) says, so the cache
simulates it. What the recency list has to do with the calls made (`Recent`)
is proved of the abstract list alone.
-/

namespace Playground.LruCache

open DList

section
variable {K V : Type}

/-! ## The representation -/

structure Linked (c : LRUCache K V) (l : List (Nat × K × V)) : Prop where
  seg : Seg c.heap none none l
  head : c.head = first l
  tail : c.tail = last l
  nodup : (l.map Prod.fst).Nodup

def index (l : List (Nat × K × V)) : List (K × Nat) := l.map fun x => (x.2.1, x.1)

theorem index_fst (l : List (Nat × K × V)) : (index l).map Prod.fst = l.map fun x => x.2.1 := by simp [index]

theorem index_snd (l : List (Nat × K × V)) : (index l).map Prod.snd = l.map Prod.fst := by simp [index]

theorem mem_index {l : List (Nat × K × V)} {k : K} {a : Nat} : (k, a) ∈ index l ↔ ∃ v, (a, k, v) ∈ l := by
  simp [index]

def entries (l : List (Nat × K × V)) : List (K × V) := l.map Prod.snd

theorem not_mem_entries {l : List (Nat × K × V)} {k : K} (hk : ∀ x ∈ l, x.2.1 ≠ k) :
    k ∉ (entries l).map Prod.fst := by
  simp only [entries, List.map_map, List.mem_map, not_exists, not_and]
  exact hk

theorem others_ne {l₁ l₂ : List (Nat × K × V)} {a : Nat} {k : K} {v : V}
    (hnd : ((l₁ ++ (a, k, v) :: l₂).map fun x => x.2.1).Nodup) :
    (∀ x ∈ l₁, x.2.1 ≠ k) ∧ ∀ x ∈ l₂, x.2.1 ≠ k := by
  rw [List.map_append, List.map_cons, List.nodup_append] at hnd
  obtain ⟨_, hnd₂, hdis⟩ := hnd
  refine ⟨fun x hx => hdis _ (List.mem_map_of_mem hx) k List.mem_cons_self, fun x hx he => ?_⟩
  exact (List.nodup_cons.mp hnd₂).1 (List.mem_map.mpr ⟨x, hx, he⟩)

theorem mem_index_init {l : List (Nat × K × V)} {x : Nat × K × V} {k : K} {a : Nat}
    (hk : ((l ++ [x]).map fun x => x.2.1).Nodup) :
    (k, a) ∈ index l ↔ (k, a) ∈ index (l ++ [x]) ∧ k ≠ x.2.1 := by
  rw [List.map_append, List.nodup_append] at hk
  rw [mem_index, mem_index]
  constructor
  · intro ⟨v, hv⟩
    exact ⟨⟨v, List.mem_append_left _ hv⟩, hk.2.2 k (List.mem_map_of_mem hv) _ (by simp)⟩
  · intro ⟨⟨v, hv⟩, hne⟩
    rcases List.mem_append.mp hv with hv | hv
    · exact ⟨v, hv⟩
    · rw [← List.mem_singleton.mp hv] at hne
      exact absurd rfl hne

structure Rep (capacity : Nat) (c : LRUCache K V) (l : List (Nat × K × V)) : Prop extends Linked c l where
  keys : (l.map fun x => x.2.1).Nodup
  map : ∀ k a, c.map k = some a ↔ (k, a) ∈ index l
  size : c.size = l.length
  cap : c.capacity = capacity
  bounded : l.length ≤ capacity
  fresh : ∀ x ∈ l, x.1 < c.fresh
  owned : ∀ a, a ∉ l.map Prod.fst → c.heap a = none

theorem rep_init (capacity : Nat) : Rep capacity ({ capacity } : LRUCache K V) [] where
  seg := trivial
  head := rfl
  tail := rfl
  nodup := List.nodup_nil
  keys := List.nodup_nil
  map := by simp [index]
  size := rfl
  cap := rfl
  bounded := Nat.zero_le _
  fresh := by simp
  owned := fun _ _ => rfl

/-! ## Moving a node to the front -/

theorem perm_front (x : Nat × K × V) (l₁ l₂ : List (Nat × K × V)) : (x :: (l₁ ++ l₂)).Perm (l₁ ++ x :: l₂) :=
  List.perm_middle.symm

section
variable {c : LRUCache K V} {l₁ l₂ : List (Nat × K × V)} {a : Nat} {d : K × V}

theorem Linked.eq_head_iff (h : Linked c (l₁ ++ (a, d) :: l₂)) : some a = c.head ↔ l₁ = [] := by
  rw [h.head]
  cases l₁ with
  | nil => simp
  | cons x l₁ =>
    have hne := (List.nodup_cons.mp h.nodup).1
    simp only [List.cons_append, first_cons, Option.some.injEq, reduceCtorEq, iff_false]
    intro heq
    subst heq
    exact hne (by simp)

theorem Linked.eq_tail_iff (h : Linked c (l₁ ++ (a, d) :: l₂)) : some a = c.tail ↔ l₂ = [] := by
  rw [h.tail]
  rcases List.eq_nil_or_concat l₂ with rfl | ⟨l, x, rfl⟩
  · simp
  · have hnd := h.nodup
    rw [List.concat_eq_append, ← List.cons_append, ← List.append_assoc] at hnd ⊢
    rw [last_snoc]
    simp only [Option.some.injEq, List.append_eq_nil_iff, List.cons_ne_self, and_false, iff_false]
    intro heq
    subst heq
    rw [List.map_append, List.nodup_append] at hnd
    exact hnd.2.2 x.1 (by simp) x.1 (by simp) rfl

theorem Linked.head_rest (h : Linked c (l₁ ++ (a, d) :: l₂)) (hl₁ : l₁ ≠ []) : c.head = first (l₁ ++ l₂) := by
  rw [h.head, first_append, first_append]
  cases l₁ with
  | nil => exact absurd rfl hl₁
  | cons x l₁ => rfl

theorem Linked.tail_rest (h : Linked c (l₁ ++ (a, d) :: l₂)) :
    (if some a = c.tail then last l₁ else c.tail) = last (l₁ ++ l₂) := by
  by_cases hl₂ : l₂ = []
  · rw [if_pos (h.eq_tail_iff.mpr hl₂), hl₂, List.append_nil]
  · rw [if_neg fun e => hl₂ (h.eq_tail_iff.mp e), h.tail, last_append, last_append, last_cons, Option.or_assoc]
    obtain ⟨x, hx⟩ := Option.ne_none_iff_exists'.mp fun e => hl₂ (last_eq_none.mp e)
    rw [hx, Option.some_or, Option.some_or]

theorem Linked.moveToFront (h : Linked c (l₁ ++ (a, d) :: l₂)) :
    ∃ heap tail, moveToFront c a = some { c with heap, head := some a, tail } ∧
      Linked { c with heap, head := some a, tail } ((a, d) :: (l₁ ++ l₂)) ∧
      ∀ b, b ∉ (l₁ ++ (a, d) :: l₂).map Prod.fst → heap b = c.heap b := by
  unfold LruCache.moveToFront
  by_cases hh : some a = c.head
  · obtain rfl := h.eq_head_iff.mp hh
    rw [if_pos hh]
    refine ⟨c.heap, c.tail, ?_, ⟨h.seg, rfl, h.tail, h.nodup⟩, fun _ _ => rfl⟩
    rw [hh]
  · have hl₁ : l₁ ≠ [] := fun e => hh (h.eq_head_iff.mpr e)
    have hnd : (((a, d) :: (l₁ ++ l₂)).map Prod.fst).Nodup :=
      (((perm_front (a, d) l₁ l₂).map Prod.fst).nodup_iff).mpr h.nodup
    have ha := (List.nodup_cons.mp hnd).1
    have hhead := h.head_rest hl₁
    have htail := h.tail_rest
    have hsome : (last (l₁ ++ l₂)).isNone = false := by
      rw [Option.isNone_eq_false_iff, Option.isSome_iff_ne_none, Ne, last_eq_none]
      exact fun e => hl₁ (List.append_eq_nil_iff.mp e).1
    obtain ⟨_, hc, _⟩ := (seg_middle _ _ _ _ _).mp h.seg
    obtain ⟨h₁, h₂, he₁, hf₁, he₂, hs, hf₂⟩ := h.seg.detach h.nodup
    have hc₁ := hf₁.trans hc
    have hc₂ := (hf₂ a ha).trans hc
    obtain ⟨h₃, he₃, hs₃, hf₃⟩ := (hs.update ha (some ⟨d, none, c.head⟩)).attachFirst hnd
      (by rw [Function.update_self, hhead])
    rw [← hhead] at he₃
    refine ⟨h₃, last (l₁ ++ l₂), ?_, ⟨hs₃, rfl, ?_, hnd⟩, ?_⟩
    · rw [if_neg hh]
      simp only [hc, he₁, hc₁, he₂, hc₂, modify_of hc₂, he₃, htail, hsome, Option.bind_eq_bind, Option.bind_some]
      rfl
    · rw [last_cons]
      cases hlast : last (l₁ ++ l₂) with
      | none => rw [hlast] at hsome; cases hsome
      | some t => rfl
    · intro b hb
      rw [List.map_append, List.map_cons, List.mem_append, List.mem_cons, not_or, not_or] at hb
      have hb' : b ∉ (l₁ ++ l₂).map Prod.fst := by
        rw [List.map_append, List.mem_append, not_or]
        exact ⟨hb.1, hb.2.2⟩
      rw [hf₃ b hb', Function.update_of_ne hb.2.1, hf₂ b hb']

end

/-! ## The operations -/

section
variable {capacity : Nat} {c : LRUCache K V} {l : List (Nat × K × V)}

/-- Writing to the nodes of the cache and reordering them keeps the rest of `Rep`. -/
theorem Rep.relink (h : Rep capacity c l) {l' : List (Nat × K × V)} {heap : Heap (K × V)} {head tail : Option Nat}
    (hp : (index l').Perm (index l)) (hl : Linked { c with heap, head, tail } l')
    (hf : ∀ b, b ∉ l.map Prod.fst → heap b = c.heap b) : Rep capacity { c with heap, head, tail } l' := by
  have hkeys := hp.map Prod.fst
  have haddr := hp.map Prod.snd
  rw [index_fst, index_fst] at hkeys
  rw [index_snd, index_snd] at haddr
  have hlen : l'.length = l.length := by simpa [index] using hp.length_eq
  exact {
    toLinked := hl
    keys := hkeys.nodup_iff.mpr h.keys
    map := fun k a => (h.map k a).trans hp.mem_iff.symm
    size := h.size.trans hlen.symm
    cap := h.cap
    bounded := hlen ▸ h.bounded
    fresh := by
      intro x hx
      obtain ⟨y, hy, he⟩ := List.mem_map.mp (haddr.mem_iff.mp (List.mem_map_of_mem hx))
      exact he ▸ h.fresh y hy
    owned := by
      intro a ha
      have ha' : a ∉ l.map Prod.fst := fun hm => ha (haddr.mem_iff.mpr hm)
      exact (hf a ha').trans (h.owned a ha') }

theorem Rep.map_mem (h : Rep capacity c l) {a : Nat} {k : K} {v : V} (hm : (a, k, v) ∈ l) : c.map k = some a :=
  (h.map k a).mpr (mem_index.mpr ⟨v, hm⟩)

theorem Rep.map_middle {l₁ l₂ : List (Nat × K × V)} {a : Nat} {k : K} {v : V}
    (h : Rep capacity c (l₁ ++ (a, k, v) :: l₂)) : c.map k = some a :=
  h.map_mem (List.mem_append_right _ List.mem_cons_self)

theorem Rep.map_none (h : Rep capacity c l) {k : K} (hk : ∀ x ∈ l, x.2.1 ≠ k) : c.map k = none := by
  cases hm : c.map k with
  | none => rfl
  | some a =>
    obtain ⟨v, hv⟩ := mem_index.mp ((h.map k a).mp hm)
    exact absurd rfl (hk _ hv)

theorem Rep.moveToFront {l₁ l₂ : List (Nat × K × V)} {a : Nat} {d : K × V}
    (h : Rep capacity c (l₁ ++ (a, d) :: l₂)) :
    ∃ c', moveToFront c a = some c' ∧ Rep capacity c' ((a, d) :: (l₁ ++ l₂)) := by
  obtain ⟨heap, tail, he, hl, hf⟩ := h.toLinked.moveToFront
  exact ⟨_, he, h.relink ((perm_front (a, d) l₁ l₂).map _) hl hf⟩

theorem Rep.get_hit {l₁ l₂ : List (Nat × K × V)} {a : Nat} {k : K} {v : V}
    (h : Rep capacity c (l₁ ++ (a, k, v) :: l₂)) :
    ∃ c', get c k = some (c', some v) ∧ Rep capacity c' ((a, k, v) :: (l₁ ++ l₂)) := by
  obtain ⟨c', he, h'⟩ := h.moveToFront
  obtain ⟨_, hc, _⟩ := (seg_middle _ [] _ _ _).mp h'.seg
  refine ⟨c', ?_, h'⟩
  unfold get
  simp [h.map_middle, he, hc]

theorem Rep.get_miss (h : Rep capacity c l) {k : K} (hk : ∀ x ∈ l, x.2.1 ≠ k) : get c k = some (c, none) := by
  unfold get
  rw [h.map_none hk]

theorem Rep.setValue {l₁ l₂ : List (Nat × K × V)} {a : Nat} {k : K} {v : V}
    (h : Rep capacity c (l₁ ++ (a, k, v) :: l₂)) (w : V) :
    ∃ heap, modify c.heap a (fun n => { n with data := (n.data.1, w) }) = some heap ∧
      Rep capacity { c with heap } (l₁ ++ (a, k, w) :: l₂) := by
  obtain ⟨heap, he, hs, hf⟩ := h.seg.setData h.nodup fun d => (d.1, w)
  have hi : index (l₁ ++ (a, k, w) :: l₂) = index (l₁ ++ (a, k, v) :: l₂) := by simp [index]
  have hlast : last (l₁ ++ (a, k, w) :: l₂) = last (l₁ ++ (a, k, v) :: l₂) := by
    rw [last_append, last_append, last_cons, last_cons]
  refine ⟨heap, he, h.relink (hi ▸ List.Perm.refl _) ⟨hs, ?_, h.tail.trans hlast.symm, ?_⟩ fun b hb => hf b ?_⟩
  · rw [first_append]
    exact h.head.trans (first_append ..)
  · have := h.nodup
    rw [← index_snd] at this ⊢
    exact hi ▸ this
  · intro heq
    subst heq
    exact hb (by simp)

end

section
variable [DecidableEq K] {capacity : Nat} {c : LRUCache K V} {l : List (Nat × K × V)}

theorem Rep.put_hit {l₁ l₂ : List (Nat × K × V)} {a : Nat} {k : K} {v : V}
    (h : Rep capacity c (l₁ ++ (a, k, v) :: l₂)) (w : V) :
    ∃ c', put c (.outside k) (.outside w) = some c' ∧ Rep capacity c' ((a, k, w) :: (l₁ ++ l₂)) := by
  obtain ⟨heap, he, h₁⟩ := h.setValue w
  obtain ⟨c', he', h'⟩ := h₁.moveToFront
  refine ⟨c', ?_, h'⟩
  unfold put
  simp [h.map_middle, he, he']

omit [DecidableEq K] in
theorem first_dropLast (l : List (Nat × K × V)) (x : Nat × K × V) :
    (if (last l).isSome then first (l ++ [x]) else none) = first l := by
  rw [first_append]
  rcases List.eq_nil_or_concat l with rfl | ⟨l, y, rfl⟩
  · rfl
  · rw [List.concat_eq_append, last_snoc, first_append, Option.or_assoc]
    cases l <;> rfl

theorem Rep.evict {x : Nat × K × V} (h : Rep capacity c (l ++ [x])) :
    ∃ c', evict c = some c' ∧ Rep capacity c' l := by
  obtain ⟨a, k, v⟩ := x
  obtain ⟨hs, hc, _⟩ := (seg_middle _ _ [] _ _).mp h.seg
  have hnd := h.nodup
  rw [List.map_append, List.nodup_append] at hnd
  have ha : a ∉ l.map Prod.fst := fun ha => hnd.2.2 a ha a (by simp) rfl
  obtain ⟨heap, he, hs', hf⟩ := hs.linkNext hnd.1 none
  have hhead : (if (last l).isSome then c.head else none) = first l := by
    rw [h.head]
    exact first_dropLast l _
  refine ⟨{ c with
    heap := Function.update heap a none, head := first l, tail := last l
    map := Function.update c.map k none, size := c.size - 1 }, ?_, ?_⟩
  · unfold LruCache.evict
    rw [h.tail, last_snoc]
    simp only [hc, he, hf a ha, hhead, Option.bind_eq_bind, Option.bind_some]
  · exact {
      seg := hs'.update ha none
      head := rfl
      tail := rfl
      nodup := hnd.1
      keys := by
        have hk := h.keys
        rw [List.map_append, List.nodup_append] at hk
        exact hk.1
      map := by
        intro k' a'
        rw [mem_index_init h.keys, ← h.map k' a']
        by_cases hk : k' = k
        · subst hk
          simp
        · simp [hk]
      size := by
        show c.size - 1 = _
        rw [h.size, List.length_append]
        exact Nat.add_sub_cancel ..
      cap := h.cap
      bounded := Nat.le_trans (by simp) h.bounded
      fresh := fun y hy => h.fresh y (List.mem_append_left _ hy)
      owned := by
        intro b hb
        by_cases hba : b = a
        · rw [hba]
          exact Function.update_self ..
        · show Function.update heap a none b = none
          rw [Function.update_of_ne hba, hf b hb]
          apply h.owned
          simp only [List.map_append, List.mem_append, not_or]
          exact ⟨hb, by simpa using hba⟩ }

theorem Rep.insertNew (h : Rep capacity c l) (hlen : l.length < capacity) {k : K}
    (hk : ∀ x ∈ l, x.2.1 ≠ k) (v : V) :
    ∃ c', insertNew c k v = some c' ∧ Rep capacity c' ((c.fresh, k, v) :: l) := by
  have ha : c.fresh ∉ l.map Prod.fst := by
    intro ha
    obtain ⟨x, hx, he⟩ := List.mem_map.mp ha
    exact Nat.lt_irrefl _ (he ▸ h.fresh x hx)
  have hnd : (((c.fresh, k, v) :: l).map Prod.fst).Nodup := List.nodup_cons.mpr ⟨ha, h.nodup⟩
  obtain ⟨heap, he, hs, hf⟩ := (h.seg.update ha (some ⟨(k, v), none, c.head⟩)).attachFirst hnd
    (by rw [Function.update_self, h.head])
  rw [← h.head] at he
  refine ⟨{ c with
    heap, head := some c.fresh, tail := if c.tail.isNone then some c.fresh else c.tail
    map := Function.update c.map k (some c.fresh), size := c.size + 1, fresh := c.fresh + 1 }, ?_, ?_⟩
  · unfold LruCache.insertNew
    simp only [he, Option.bind_eq_bind, Option.bind_some]
  exact {
    seg := hs
    head := rfl
    tail := by
      show (if c.tail.isNone then some c.fresh else c.tail) = _
      rw [last_cons, h.tail]
      cases last l <;> rfl
    nodup := hnd
    keys := by
      refine List.nodup_cons.mpr ⟨?_, h.keys⟩
      intro hm
      obtain ⟨x, hx, he⟩ := List.mem_map.mp hm
      exact hk x hx he
    map := by
      intro k' a'
      show Function.update c.map k (some c.fresh) k' = some a' ↔ (k', a') ∈ (k, c.fresh) :: index l
      rw [List.mem_cons, Prod.mk.injEq, ← h.map k' a']
      by_cases hkk : k' = k
      · subst hkk
        rw [Function.update_self, h.map_none hk]
        simp [eq_comm]
      · simp [hkk]
    size := congrArg (· + 1) h.size
    cap := h.cap
    bounded := hlen
    fresh := by
      intro x hx
      rcases List.mem_cons.mp hx with rfl | hx
      · exact Nat.lt_succ_self _
      · exact Nat.lt_succ_of_lt (h.fresh x hx)
    owned := by
      intro b hb
      rw [List.map_cons, List.mem_cons, not_or] at hb
      show heap b = none
      rw [hf b hb.2, Function.update_of_ne hb.1]
      exact h.owned b hb.2 }

theorem Rep.put_room (h : Rep capacity c l) (hlen : l.length < capacity) {k : K} (hk : ∀ x ∈ l, x.2.1 ≠ k) (v : V) :
    ∃ c' a, put c (.outside k) (.outside v) = some c' ∧ Rep capacity c' ((a, k, v) :: l) := by
  obtain ⟨c', he, h'⟩ := h.insertNew hlen hk v
  refine ⟨c', c.fresh, ?_, h'⟩
  have hfull : c.size ≠ c.capacity := by
    rw [h.size, h.cap]
    exact Nat.ne_of_lt hlen
  unfold put
  simp only [Arg.read_outside, h.map_none hk, if_neg hfull, he, Option.bind_eq_bind, Option.bind_some]

theorem Rep.put_full {x : Nat × K × V} (h : Rep capacity c (l ++ [x])) (hlen : (l ++ [x]).length = capacity) {k : K}
    (hk : ∀ y ∈ l ++ [x], y.2.1 ≠ k) (v : V) : ∃ c' a, put c (.outside k) (.outside v) = some c' ∧
    Rep capacity c' ((a, k, v) :: l) := by
  obtain ⟨c₁, he₁, h₁⟩ := h.evict
  have hroom : l.length < capacity := by
    rw [← hlen, List.length_append]
    exact Nat.lt_succ_self _
  obtain ⟨c', he, h'⟩ := h₁.insertNew hroom (fun y hy => hk y (List.mem_append_left _ hy)) v
  refine ⟨c', c₁.fresh, ?_, h'⟩
  have hfull : c.size = c.capacity := by rw [h.size, h.cap, hlen]
  unfold put
  simp only [Arg.read_outside, h.map_none hk, if_pos hfull, he₁, he, Option.bind_eq_bind, Option.bind_some]

/-! ## The recency list -/

theorem key_cases (l : List (Nat × K × V)) (k : K) :
    (∀ x ∈ l, x.2.1 ≠ k) ∨ ∃ l₁ a v l₂, l = l₁ ++ (a, k, v) :: l₂ := by
  by_cases hk : ∃ x ∈ l, x.2.1 = k
  · obtain ⟨⟨a, k', v⟩, hx, rfl⟩ := hk
    obtain ⟨l₁, l₂, rfl⟩ := List.append_of_mem hx
    exact Or.inr ⟨l₁, a, v, l₂, rfl⟩
  · exact Or.inl fun x hx he => hk ⟨x, hx, he⟩

theorem find?_entries {l₁ l₂ : List (Nat × K × V)} {a : Nat} {k : K} {v : V} (hk : ∀ x ∈ l₁, x.2.1 ≠ k) :
    (entries (l₁ ++ (a, k, v) :: l₂)).find? (fun e => e.1 = k) = some (k, v) := by
  have h₁ : (entries l₁).find? (fun e => e.1 = k) = none := by
    rw [List.find?_eq_none]
    intro e he
    obtain ⟨x, hx, rfl⟩ := List.mem_map.mp he
    simpa using hk x hx
  rw [entries, List.map_append, List.find?_append, ← entries, h₁]
  simp

theorem filter_entries {l₁ l₂ : List (Nat × K × V)} {a : Nat} {k : K} {v : V} (h₁ : ∀ x ∈ l₁, x.2.1 ≠ k)
    (h₂ : ∀ x ∈ l₂, x.2.1 ≠ k) :
    (entries (l₁ ++ (a, k, v) :: l₂)).filter (fun e => e.1 ≠ k) = entries (l₁ ++ l₂) := by
  have hall : ∀ l : List (Nat × K × V), (∀ x ∈ l, x.2.1 ≠ k) →
    (entries l).filter (fun e => e.1 ≠ k) = entries l := by
    intro l hl
    apply List.filter_eq_self.mpr
    intro e he
    obtain ⟨x, hx, rfl⟩ := List.mem_map.mp he
    simpa using hl x hx
  have hsplit : entries (l₁ ++ (a, k, v) :: l₂) = entries l₁ ++ (k, v) :: entries l₂ := by simp [entries]
  rw [hsplit, List.filter_append, hall l₁ h₁, List.filter_cons, if_neg (by simp), hall l₂ h₂, entries, entries,
    entries, List.map_append]

theorem rep_step (hc : 0 < capacity) (h : Rep capacity c l) (call : Call K V) : ∃ c' l',
    (lruCache K V capacity).step c call = some (c', (recencyStep capacity (entries l) call).2) ∧
      Rep capacity c' l' ∧ entries l' = (recencyStep capacity (entries l) call).1 := by
  cases call with
  | get k =>
    rcases key_cases l k with hk | ⟨l₁, a, v, l₂, rfl⟩
    · have hf : (entries l).find? (fun e => e.1 = k) = none := by
        rw [List.find?_eq_none]
        exact fun e he hek => not_mem_entries hk (of_decide_eq_true hek ▸ List.mem_map_of_mem he)
      simp only [recencyStep, hf]
      exact ⟨c, l, h.get_miss hk, h, rfl⟩
    · obtain ⟨h₁, h₂⟩ := others_ne h.keys
      obtain ⟨c', he, h'⟩ := h.get_hit
      simp only [recencyStep, find?_entries h₁, filter_entries h₁ h₂]
      exact ⟨c', _, he, h', rfl⟩
  | put k w =>
    rcases key_cases l k with hk | ⟨l₁, a, v, l₂, rfl⟩
    · have hlen : (entries l).length = l.length := List.length_map ..
      simp only [recencyStep, if_neg (not_mem_entries hk), hlen]
      by_cases hfull : l.length = capacity
      · rcases List.eq_nil_or_concat l with rfl | ⟨l, x, rfl⟩
        · exact absurd hfull (Nat.ne_of_lt hc)
        · rw [List.concat_eq_append] at h hk hfull ⊢
          obtain ⟨c', a, he, h'⟩ := h.put_full hfull hk w
          refine ⟨c', _, by simp [lruCache, he, hfull], h', ?_⟩
          simp [entries, hfull]
      · obtain ⟨c', a, he, h'⟩ := h.put_room (Nat.lt_of_le_of_ne h.bounded hfull) hk w
        exact ⟨c', _, by simp [lruCache, he, hfull], h', by simp [entries, hfull]⟩
    · obtain ⟨h₁, h₂⟩ := others_ne h.keys
      obtain ⟨c', he, h'⟩ := h.put_hit w
      have hm : k ∈ (entries (l₁ ++ (a, k, v) :: l₂)).map Prod.fst := by simp [entries]
      simp only [recencyStep, if_pos hm, filter_entries h₁ h₂]
      exact ⟨c', _, by simp [lruCache, he], h', rfl⟩

theorem lruCache_simulates (hc : 0 < capacity) : (lruCache K V capacity).Simulates (recency K V capacity)
    fun c e => ∃ l, Rep capacity c l ∧ entries l = e where
  init := ⟨[], rep_init capacity, rfl⟩
  step := by
    rintro c _ call ⟨l, h, rfl⟩
    obtain ⟨c', l', he, h', hl⟩ := rep_step hc h call
    exact ⟨c', he, l', h', hl⟩

end

/-! ## The cache, from outside -/

/-- The links, the map and the counter of a cache whose nodes are `l`. -/
structure Holds (capacity : Nat) (c : LRUCache K V) (l : List (Nat × K × V)) : Prop where
  forward : Path Cell.next c.heap c.head l none
  forward_end : last l = c.tail
  backward : Path Cell.prev c.heap c.tail l.reverse none
  backward_end : last l.reverse = c.head
  map : ∀ k a, c.map k = some a ↔ ∃ v, (a, k, v) ∈ l
  keys : (l.map fun x => x.2.1).Nodup
  size : c.size = l.length
  bounded : c.size ≤ capacity

theorem Rep.holds {capacity : Nat} {c : LRUCache K V} {l : List (Nat × K × V)} (h : Rep capacity c l) :
    Holds capacity c l where
  forward := by
    rw [h.head, ← Option.or_none (o := first l)]
    exact h.seg.forward
  forward_end := h.tail.symm
  backward := by
    rw [h.tail, ← Option.or_none (o := last l)]
    exact h.seg.backward
  backward_end := (last_reverse l).trans h.head.symm
  map := fun k a => (h.map k a).trans mem_index
  keys := h.keys
  size := h.size
  bounded := h.size ▸ h.bounded

/-- The cache `c` after the calls `cs`, when its nodes are `l`, and at the next call. -/
structure RefinesRecency [DecidableEq K] (capacity : Nat) (cs : List (Call K V)) (c : LRUCache K V)
    (l : List (Nat × K × V)) : Prop where
  holds : Holds capacity c l
  recency : entries l = (recency K V capacity).exec cs
  recent : l.Pairwise fun x y => age cs x.2.1 < age cs y.2.1
  value : ∀ a k v, (a, k, v) ∈ l → lastPut cs k = some v
  get_hit : ∀ l₁ a k v l₂, l = l₁ ++ (a, k, v) :: l₂ →
    ∃ c', get c k = some (c', some v) ∧ Holds capacity c' ((a, k, v) :: (l₁ ++ l₂))
  get_miss : ∀ k, (∀ x ∈ l, x.2.1 ≠ k) → get c k = some (c, none)
  put_hit : ∀ l₁ a k v l₂ w, l = l₁ ++ (a, k, v) :: l₂ →
    ∃ c', put c (.outside k) (.outside w) = some c' ∧ Holds capacity c' ((a, k, w) :: (l₁ ++ l₂))
  put_room : ∀ k v, (∀ x ∈ l, x.2.1 ≠ k) → l.length < capacity →
    ∃ c' a, put c (.outside k) (.outside v) = some c' ∧ Holds capacity c' ((a, k, v) :: l)
  put_full : ∀ l₁ x k v, l = l₁ ++ [x] → l.length = capacity → (∀ y ∈ l, y.2.1 ≠ k) →
    ∃ c' a, put c (.outside k) (.outside v) = some c' ∧ Holds capacity c' ((a, k, v) :: l₁)

/-- **The cache is a recency list**, after any calls and at any next call. -/
theorem lruCache_refines [DecidableEq K] (capacity : Nat) (hc : 0 < capacity) (cs : List (Call K V)) :
    ∃ c l, (lruCache K V capacity).exec cs = some c ∧ RefinesRecency capacity cs c l := by
  obtain ⟨c, he, l, h, hl⟩ := (lruCache_simulates hc).exec cs
  have hr := recent_exec capacity cs
  rw [← hl] at hr
  refine ⟨c, l, he, ?_⟩
  exact {
    holds := h.holds
    recency := hl
    recent := by simpa [entries, List.pairwise_map] using hr.sorted
    value := fun a k v hm => hr.value (k, v) (List.mem_map_of_mem hm)
    get_hit := by
      rintro l₁ a k v l₂ rfl
      obtain ⟨c', he, h'⟩ := h.get_hit
      exact ⟨c', he, h'.holds⟩
    get_miss := fun k hk => h.get_miss hk
    put_hit := by
      rintro l₁ a k v l₂ w rfl
      obtain ⟨c', he, h'⟩ := h.put_hit w
      exact ⟨c', he, h'.holds⟩
    put_room := by
      intro k v hk hlen
      obtain ⟨c', a, he, h'⟩ := h.put_room hlen hk v
      exact ⟨c', a, he, h'.holds⟩
    put_full := by
      rintro l₁ x k v rfl hlen hk
      obtain ⟨c', a, he, h'⟩ := h.put_full hlen hk v
      exact ⟨c', a, he, h'.holds⟩ }

end

/-- Two entries, a hit on the older one, and a third entry that evicts the other. -/
def evictSecond : List (Call Nat Nat) := [.put 1 10, .put 2 20, .get 1, .put 3 30]

theorem lruCache_refines_evict : ∃ c l, (lruCache Nat Nat 2).exec evictSecond = some c ∧
    c.map 2 = none ∧ RefinesRecency 2 evictSecond c l := by
  obtain ⟨c, l, he, h⟩ := lruCache_refines 2 (by decide) evictSecond
  refine ⟨c, l, he, ?_, h⟩
  obtain rfl := Option.some.inj he
  rfl

/-- `cache.put(2, *cache.get(1))` in a full cache of one entry: the argument is there, 10, when the call is made. -/
theorem put_dangling : ∃ c node, (lruCache Nat Nat 1).exec [.put 1 10, .get 1] = some c ∧ c.map 1 = some node ∧
    (Arg.inside node id).read c.live = some 10 ∧ put c (.outside 2) (.inside node id) = none :=
  ⟨_, 0, rfl, rfl, rfl, rfl⟩

/-! ## The end of the cache -/

theorem Rep.length_le {K V : Type} {capacity : Nat} {c : LRUCache K V} {l : List (Nat × K × V)}
    (h : Rep capacity c l) :
    l.length ≤ c.fresh := by
  have hsub : (l.map Prod.fst).Subperm (List.range c.fresh) := by
    apply h.nodup.subperm
    intro a ha
    obtain ⟨x, hx, rfl⟩ := List.mem_map.mp ha
    exact List.mem_range.mpr (h.fresh x hx)
  simpa using hsub.length_le

/-- Whatever was cached, the destructor deletes every node that is left, each once. -/
theorem lruCache_destroy {K V : Type} [DecidableEq K] (capacity : Nat) (hc : 0 < capacity) (cs : List (Call K V)) :
    ∃ c c', (lruCache K V capacity).exec cs = some c ∧ destroy c = some c' ∧ c'.head = none ∧
      ∀ a, c'.heap a = none := by
  obtain ⟨c, he, l, h, _⟩ := (lruCache_simulates hc).exec cs
  obtain ⟨heap, hrun, _, hfreed, hrest⟩ := run_free h.seg h.nodup (Nat.lt_succ_of_le h.length_le) c.fresh
  rw [← h.head] at hrun
  refine ⟨c, { c with heap, head := none }, he, by simp only [destroy, hrun]; rfl, rfl, fun a => ?_⟩
  by_cases ha : a ∈ l.map Prod.fst
  · exact hfreed a ha
  · exact (hrest a ha).trans (h.owned a ha)

end Playground.LruCache
