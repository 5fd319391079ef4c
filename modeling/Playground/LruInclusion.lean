import Mathlib.Data.List.Nodup
import Playground.LruCacheSound

/-!
# A larger cache holds what a smaller one holds

Two caches get the same calls. Their contents diverge: a hit in the larger one
alone reorders only that one, and they evict at different times. What stays is
`Included`: the smaller recency list is a sublist of the larger one, and as
long as the smaller cache is not full the two are equal.
-/

namespace Playground.LruCache

section
variable {K V : Type}

/-- Recency lists after the same calls, the first at capacity `c`, the second at a larger one. -/
structure Included (c : Nat) (l₁ l₂ : List (K × V)) : Prop where
  sublist : l₁.Sublist l₂
  room : l₁.length < c → l₁ = l₂
  bounded : l₁.length ≤ c

variable {c : Nat} {l l₁ l₂ : List (K × V)} {k : K} {e : K × V}

theorem Included.full (h : Included c l₁ l₂) (hne : l₁ ≠ l₂) : l₁.length = c := by
  by_contra hlen
  exact hne (h.room (Nat.lt_of_le_of_ne h.bounded hlen))

theorem Included.mem (h : Included c l₁ l₂) (hk : k ∈ l₁.map Prod.fst) : k ∈ l₂.map Prod.fst :=
  (h.sublist.map Prod.fst).subset hk

theorem sublist_dropLast (h : l₁.Sublist l₂) : l₁.dropLast.Sublist l₂.dropLast := by
  rcases List.eq_nil_or_concat l₂ with rfl | ⟨m, x, rfl⟩
  · simp [List.sublist_nil.mp h]
  · rw [List.concat_eq_append] at h ⊢
    obtain ⟨a, b, rfl, ha, hb⟩ := List.sublist_append_iff.mp h
    rw [List.dropLast_concat]
    rcases List.sublist_singleton.mp hb with rfl | rfl
    · rw [List.append_nil]
      exact (List.dropLast_sublist a).trans ha
    · rw [List.dropLast_concat]
      exact ha

/-- The smaller list, full and without the key, in front of which the larger one moves or adds it. -/
theorem Included.evict (hc : 0 < c) (hfull : l₁.length = c) (e : K × V) {m : List (K × V)}
    (hm : l₁.dropLast.Sublist m) : Included c (e :: l₁.dropLast) (e :: m) := by
  have hlen : (e :: l₁.dropLast).length = c := by
    rw [List.length_cons, List.length_dropLast, hfull]
    exact Nat.sub_add_cancel hc
  exact ⟨hm.cons_cons e, fun hlt => absurd hlen (Nat.ne_of_lt hlt), Nat.le_of_eq hlen⟩

variable [DecidableEq K]

theorem filter_absent (h : k ∉ l.map Prod.fst) : l.filter (fun e => e.1 ≠ k) = l := by
  apply List.filter_eq_self.mpr
  intro e he
  simpa using fun hek : e.1 = k => h (hek ▸ List.mem_map_of_mem he)

theorem length_filter (hnd : (l.map Prod.fst).Nodup) (hk : k ∈ l.map Prod.fst) :
    (l.filter fun e => e.1 ≠ k).length + 1 = l.length := by
  induction l with
  | nil => cases hk
  | cons x l ih =>
    obtain ⟨hx, hnd⟩ := List.nodup_cons.mp hnd
    by_cases hxk : x.1 = k
    · rw [List.filter_cons_of_neg (by simpa using hxk), filter_absent (hxk ▸ hx), List.length_cons]
    · have hk' : k ∈ l.map Prod.fst := (List.mem_cons.mp hk).resolve_left (Ne.symm hxk)
      rw [List.filter_cons_of_pos (by simpa using hxk), List.length_cons, List.length_cons, ih hnd hk']

theorem find_eq_some (hnd : (l.map Prod.fst).Nodup) :
    l.find? (fun e => e.1 = k) = some e ↔ e ∈ l ∧ e.1 = k := by
  constructor
  · intro hf
    have hek := List.find?_some hf
    exact ⟨List.mem_of_find?_eq_some hf, of_decide_eq_true hek⟩
  · intro ⟨he, hek⟩
    cases hf : l.find? (fun e => e.1 = k) with
    | none => exact absurd (decide_eq_true hek) (List.find?_eq_none.mp hf e he)
    | some e' =>
      have hek' := List.find?_some hf
      rw [List.inj_on_of_nodup_map hnd (List.mem_of_find?_eq_some hf) he ((of_decide_eq_true hek').trans hek.symm)]

/-! ## One call -/

theorem step_get_hit (hnd : (l.map Prod.fst).Nodup) (he : e ∈ l) (capacity : Nat) :
    recencyStep capacity l (.get e.1) = (e :: l.filter fun e' => e'.1 ≠ e.1, some e.2) := by
  have hf : l.find? (fun e' => e'.1 = e.1) = some e := (find_eq_some hnd).mpr ⟨he, rfl⟩
  simp only [recencyStep, hf]

theorem step_get_miss (hk : k ∉ l.map Prod.fst) (capacity : Nat) :
    recencyStep capacity l (.get k) = (l, none) := by
  have hf : l.find? (fun e' => e'.1 = k) = none := by
    rw [List.find?_eq_none]
    exact fun e he hek => hk (of_decide_eq_true hek ▸ List.mem_map_of_mem he)
  simp only [recencyStep, hf]

theorem Included.front (h : Included c l₁ l₂) (hnd : (l₁.map Prod.fst).Nodup) (hk : k ∈ l₁.map Prod.fst) (v : V) :
    Included c ((k, v) :: l₁.filter fun e => e.1 ≠ k) ((k, v) :: l₂.filter fun e => e.1 ≠ k) where
  sublist := (h.sublist.filter _).cons_cons _
  room := by
    rw [List.length_cons, length_filter hnd hk]
    intro hlt
    rw [h.room hlt]
  bounded := by
    rw [List.length_cons, length_filter hnd hk]
    exact h.bounded

theorem Included.step {c' : Nat} (hc : 0 < c) (hle : c ≤ c') (h : Included c l₁ l₂) (hnd : (l₂.map Prod.fst).Nodup)
    (call : Call K V) : Included c (recencyStep c l₁ call).1 (recencyStep c' l₂ call).1 := by
  have hnd₁ : (l₁.map Prod.fst).Nodup := hnd.sublist (h.sublist.map Prod.fst)
  cases call with
  | get key =>
    by_cases hk₂ : key ∈ l₂.map Prod.fst
    · obtain ⟨e, he, rfl⟩ := List.mem_map.mp hk₂
      rw [step_get_hit hnd he]
      by_cases hk₁ : e.1 ∈ l₁.map Prod.fst
      · obtain ⟨e', he', hek⟩ := List.mem_map.mp hk₁
        obtain rfl : e' = e := List.inj_on_of_nodup_map hnd (h.sublist.subset he') he hek
        rw [step_get_hit hnd₁ he']
        exact h.front hnd₁ hk₁ e'.2
      · rw [step_get_miss hk₁]
        have hs := h.sublist.filter fun e' => e'.1 ≠ e.1
        rw [filter_absent hk₁] at hs
        have hfull : l₁.length = c := h.full fun heq => hk₁ (heq ▸ hk₂)
        exact ⟨hs.cons e, fun hlt => absurd hfull (Nat.ne_of_lt hlt), h.bounded⟩
    · have hk₁ : key ∉ l₁.map Prod.fst := fun hk₁ => hk₂ (h.mem hk₁)
      rw [step_get_miss hk₁, step_get_miss hk₂]
      exact h
  | put key value =>
    by_cases hk₁ : key ∈ l₁.map Prod.fst
    · simp only [recencyStep, if_pos hk₁, if_pos (h.mem hk₁)]
      exact h.front hnd₁ hk₁ value
    · by_cases hk₂ : key ∈ l₂.map Prod.fst
      · have hfull : l₁.length = c := h.full fun heq => hk₁ (heq ▸ hk₂)
        simp only [recencyStep, if_neg hk₁, if_pos hk₂, if_pos hfull]
        have hs := h.sublist.filter fun e' => e'.1 ≠ key
        rw [filter_absent hk₁] at hs
        exact Included.evict hc hfull (key, value) ((List.dropLast_sublist l₁).trans hs)
      · by_cases hfull : l₁.length = c
        · simp only [recencyStep, if_neg hk₁, if_neg hk₂, if_pos hfull]
          by_cases hfull₂ : l₂.length = c'
          · rw [if_pos hfull₂]
            exact Included.evict hc hfull (key, value) (sublist_dropLast h.sublist)
          · rw [if_neg hfull₂]
            exact Included.evict hc hfull (key, value) ((List.dropLast_sublist l₁).trans h.sublist)
        · have hlt : l₁.length < c := Nat.lt_of_le_of_ne h.bounded hfull
          obtain rfl := h.room hlt
          simp only [recencyStep, if_neg hk₁, if_neg hfull, if_neg (Nat.ne_of_lt (Nat.lt_of_lt_of_le hlt hle))]
          exact ⟨List.Sublist.refl _, fun _ => rfl, hlt⟩

/-! ## All calls -/

theorem included_exec {c c' : Nat} (hc : 0 < c) (hle : c ≤ c') (cs : List (Call K V)) :
    Included c ((recency K V c).exec cs) ((recency K V c').exec cs) := by
  induction cs using List.reverseRecOn with
  | nil => exact ⟨List.Sublist.slnil, fun _ => rfl, Nat.zero_le c⟩
  | append_singleton cs call ih =>
    rw [Spec.exec_snoc, Spec.exec_snoc]
    exact ih.step hc hle (recent_exec c' cs).nodup call

theorem Included.hit (c' : Nat) (h : Included c l₁ l₂) (hnd : (l₂.map Prod.fst).Nodup) {v : V}
    (hv : (recencyStep c l₁ (.get k)).2 = some v) : (recencyStep c' l₂ (.get k)).2 = some v := by
  by_cases hk : k ∈ l₁.map Prod.fst
  · obtain ⟨e, he, rfl⟩ := List.mem_map.mp hk
    rw [step_get_hit (hnd.sublist (h.sublist.map Prod.fst)) he] at hv
    rw [step_get_hit hnd (h.sublist.subset he)]
    exact hv
  · rw [step_get_miss hk] at hv
    cases hv

/-- **Inclusion**, at every point of a run: after the calls `cs` the entries of the smaller cache, in
recency order, are a sublist of those of the larger one, and its hits are hits of the larger one. -/
theorem lruCache_inclusion (c₁ c₂ : Nat) (hc : 1 ≤ c₁) (hle : c₁ ≤ c₂) (cs : List (Call K V)) :
    ∃ s₁ s₂ l₁ l₂, (lruCache K V c₁).exec cs = some s₁ ∧ Holds c₁ s₁ l₁ ∧ (lruCache K V c₂).exec cs = some s₂ ∧
      Holds c₂ s₂ l₂ ∧ (entries l₁).Sublist (entries l₂) ∧
      ∀ k s v, get s₁ k = some (s, some v) → ∃ s', get s₂ k = some (s', some v) := by
  have hin := included_exec (K := K) (V := V) hc hle cs
  have hnd := (recent_exec (K := K) (V := V) c₂ cs).nodup
  have hsim₁ := lruCache_simulates (K := K) (V := V) hc
  have hsim₂ := lruCache_simulates (K := K) (V := V) (Nat.le_trans hc hle)
  obtain ⟨s₁, he₁, l₁, h₁, hl₁⟩ := hsim₁.exec cs
  obtain ⟨s₂, he₂, l₂, h₂, hl₂⟩ := hsim₂.exec cs
  refine ⟨s₁, s₂, l₁, l₂, he₁, h₁.holds, he₂, h₂.holds, by rw [hl₁, hl₂]; exact hin.sublist, ?_⟩
  intro k s v hget
  obtain ⟨t₁, ht₁, _⟩ := hsim₁.step s₁ _ (.get k) ⟨l₁, h₁, hl₁⟩
  obtain ⟨t₂, ht₂, _⟩ := hsim₂.step s₂ _ (.get k) ⟨l₂, h₂, hl₂⟩
  have hout := (Prod.mk.inj (Option.some.inj (hget.symm.trans ht₁))).2
  have hhit : ((recency K V c₂).step ((recency K V c₂).exec cs) (.get k)).2 = some v := hin.hit c₂ hnd hout.symm
  rw [hhit] at ht₂
  exact ⟨t₂, ht₂⟩

end

/-- A hit of the larger cache only, then an eviction in the smaller one. -/
theorem lruCache_inclusion_reorder : ∃ s₁ s₂ l₁ l₂,
    (lruCache Nat Nat 1).exec evictSecond = some s₁ ∧ Holds 1 s₁ l₁ ∧
      (lruCache Nat Nat 2).exec evictSecond = some s₂ ∧ Holds 2 s₂ l₂ ∧ (entries l₁).Sublist (entries l₂) ∧
      ∀ k s v, get s₁ k = some (s, some v) → ∃ s', get s₂ k = some (s', some v) :=
  lruCache_inclusion 1 2 (by decide) (by decide) evictSecond

/-- `cache.put(2, *cache.get(1))` in both: only the smaller one has to evict, and has no result. -/
theorem put_dangling_smaller : ∃ s₁ s₂ node₁ node₂, (lruCache Nat Nat 1).exec [.put 1 10, .get 1] = some s₁ ∧
    (lruCache Nat Nat 2).exec [.put 1 10, .get 1] = some s₂ ∧ s₁.map 1 = some node₁ ∧ s₂.map 1 = some node₂ ∧
    put s₁ (.outside 2) (.inside node₁ id) = none ∧
    ∃ s₂' v, put s₂ (.outside 2) (.inside node₂ id) = some s₂' ∧ get s₂' 2 = some (v, some 10) :=
  ⟨_, _, 0, 0, rfl, rfl, rfl, rfl, rfl, _, _, rfl, rfl⟩

end Playground.LruCache
