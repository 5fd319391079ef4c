import Playground.LruCache

/-!
# The recency list

What an LRU cache is for: a list of entries, most recently used first. In
terms of the calls made, an entry is the further back in the list the longer
ago its key was named by a call (`age`), and its value is the one that was put
last (`lastPut`).
-/

namespace Playground.LruCache

section
variable {K V : Type} [DecidableEq K]

def recencyStep (capacity : Nat) (l : List (K × V)) : Call K V → List (K × V) × Option V
  | .get key =>
    match l.find? fun e => e.1 = key with
    | none => (l, none)
    | some e => (e :: l.filter fun e => e.1 ≠ key, some e.2)
  | .put key value =>
    if key ∈ l.map Prod.fst then ((key, value) :: l.filter fun e => e.1 ≠ key, none)
    else if l.length = capacity then ((key, value) :: l.dropLast, none)
    else ((key, value) :: l, none)

def recency (K V : Type) [DecidableEq K] (capacity : Nat) : Spec (List (K × V)) (Call K V) (Option V) where
  init := []
  step := recencyStep capacity

/-! ## The calls made -/

omit [DecidableEq K] in
def Call.key : Call K V → K
  | .get key => key
  | .put key _ => key

/-- The number of calls since the last one that named `k`. -/
def age (cs : List (Call K V)) (k : K) : Nat := cs.reverse.findIdx fun c => c.key = k

def lastPut (cs : List (Call K V)) (k : K) : Option V :=
  cs.reverse.findSome? fun
    | .get _ => none
    | .put key value => if key = k then some value else none

theorem age_snoc (cs : List (Call K V)) (c : Call K V) (k : K) :
    age (cs ++ [c]) k = if c.key = k then 0 else age cs k + 1 := by
  unfold age
  rw [List.reverse_append, List.reverse_singleton, List.singleton_append, List.findIdx_cons]
  by_cases h : c.key = k <;> simp [h]

theorem lastPut_get (cs : List (Call K V)) (key k : K) :
    lastPut (cs ++ [.get key]) k = lastPut cs k := by simp [lastPut]

theorem lastPut_put (cs : List (Call K V)) (key : K) (value : V) (k : K) :
    lastPut (cs ++ [.put key value]) k = if key = k then some value else lastPut cs k := by
  by_cases h : key = k <;> simp [lastPut, h]

/-- The list, in terms of the calls made. -/
structure Recent (cs : List (Call K V)) (l : List (K × V)) : Prop where
  sorted : l.Pairwise fun e e' => age cs e.1 < age cs e'.1
  value : ∀ e ∈ l, lastPut cs e.1 = some e.2

variable {cs : List (Call K V)} {l : List (K × V)}

theorem Recent.nodup (h : Recent cs l) : (l.map Prod.fst).Nodup := by
  refine List.pairwise_map.mpr (h.sorted.imp fun hlt he => ?_)
  rw [he] at hlt
  exact Nat.lt_irrefl _ hlt

theorem Recent.sublist (h : Recent cs l) {l' : List (K × V)} (hs : l'.Sublist l) : Recent cs l' :=
  ⟨h.sorted.sublist hs, fun e he => h.value e (hs.subset he)⟩

theorem Recent.snoc (h : Recent cs l) {c : Call K V} (hc : ∀ e ∈ l, e.1 ≠ c.key) : Recent (cs ++ [c]) l where
  sorted := by
    apply h.sorted.imp_of_mem
    intro e e' he he' hlt
    rw [age_snoc, age_snoc, if_neg (hc _ he).symm, if_neg (hc _ he').symm]
    exact Nat.succ_lt_succ hlt
  value := by
    intro e he
    cases c with
    | get key => rw [lastPut_get, h.value e he]
    | put key value =>
      have hne : key ≠ e.1 := (hc e he).symm
      rw [lastPut_put, if_neg hne, h.value e he]

theorem Recent.front (h : Recent cs l) {c : Call K V} (hc : ∀ e ∈ l, e.1 ≠ c.key) {v : V}
    (hv : lastPut (cs ++ [c]) c.key = some v) : Recent (cs ++ [c]) ((c.key, v) :: l) where
  sorted := by
    refine List.pairwise_cons.mpr ⟨fun e he => ?_, (h.snoc hc).sorted⟩
    rw [age_snoc, age_snoc, if_pos rfl, if_neg (hc e he).symm]
    exact Nat.succ_pos _
  value := by
    intro e he
    rcases List.mem_cons.mp he with rfl | he
    · exact hv
    · exact (h.snoc hc).value e he

theorem recent_step (capacity : Nat) (h : Recent cs l) (c : Call K V) :
    Recent (cs ++ [c]) (recencyStep capacity l c).1 := by
  have hfilter : ∀ key, ∀ e ∈ l.filter fun e => e.1 ≠ key, e.1 ≠ key := fun key e he => by
    simpa using (List.mem_filter.mp he).2
  cases c with
  | get key =>
    cases hf : l.find? fun e => e.1 = key with
    | none =>
      simp only [recencyStep, hf]
      rw [List.find?_eq_none] at hf
      exact h.snoc (c := .get key) fun e he hek => hf e he (decide_eq_true hek)
    | some e =>
      simp only [recencyStep, hf]
      have hv := h.value e (List.mem_of_find?_eq_some hf)
      obtain rfl : e.1 = key := by simpa using List.find?_some hf
      exact (h.sublist List.filter_sublist).front (c := .get e.1) (v := e.2) (hfilter e.1)
        (by rw [lastPut_get]; exact hv)
  | put key value =>
    have hv : lastPut (cs ++ [.put key value]) key = some value := by rw [lastPut_put, if_pos rfl]
    by_cases hk : key ∈ l.map Prod.fst
    · simp only [recencyStep, if_pos hk]
      exact (h.sublist List.filter_sublist).front (c := .put key value) (hfilter key) hv
    · have hne : ∀ e ∈ l, e.1 ≠ key := fun e he hek => hk (hek ▸ List.mem_map_of_mem he)
      by_cases hl : l.length = capacity
      · simp only [recencyStep, if_neg hk, if_pos hl]
        exact (h.sublist (List.dropLast_sublist l)).front (c := .put key value)
          (fun e he => hne e (List.dropLast_subset l he)) hv
      · simp only [recencyStep, if_neg hk, if_neg hl]
        exact h.front (c := .put key value) hne hv

theorem recent_exec (capacity : Nat) (cs : List (Call K V)) : Recent cs ((recency K V capacity).exec cs) := by
  induction cs using List.reverseRecOn with
  | nil => exact ⟨List.Pairwise.nil, by simp [recency]⟩
  | append_singleton cs c ih =>
    rw [Spec.exec_snoc]
    exact recent_step capacity ih c

end

end Playground.LruCache
