import Mathlib.Data.List.FinRange
import Mathlib.Data.List.Lex
import Playground.Trie

/-!
# The words of a trie

`words` lists the words below a node in order, without what leads to it. An
insertion adds its word, a traversal keeps the words that start with its key,
and `collectWords` appends words until the limit is reached. Every node but the
root has a word below it.
-/

namespace Playground.Trie

variable {children : Fin 26 → TrieNode} {is_end : Bool} {t t' node node' : TrieNode} {c : UInt8}
  {w word key prefix_ : Word} {ws : List Word}

/-! ## Letters -/

@[simp] theorem toNat_letter (i : Fin 26) : (letter i).toNat = 97 + i := by
  simp [letter]
  omega

theorem letter_lt {i j : Fin 26} (h : i < j) : letter i < letter j := by
  apply UInt8.lt_iff_toNat_lt.mpr
  simp
  omega

theorem letter_inj {i j : Fin 26} (h : letter i = letter j) : i = j := by
  have hnat := congrArg UInt8.toNat h
  simp at hnat
  omega

theorem letter_index {i : Fin 26} (h : index c = some i) : letter i = c := by
  unfold index at h
  split at h
  · cases h
    apply UInt8.toNat_inj.mp
    simp
    omega
  · cases h

theorem index_of {c : UInt8} (h : 97 ≤ c.toNat ∧ c.toNat ≤ 122) : ∃ i, index c = some i := by
  unfold index
  rw [dif_pos (by omega)]
  exact ⟨_, rfl⟩

theorem Lower.cons (h : Lower (c :: word)) : (∃ i, index c = some i) ∧ Lower word :=
  ⟨index_of (h c List.mem_cons_self), fun d hd => h d (List.mem_cons_of_mem c hd)⟩

theorem lower_nil : Lower [] := by
  intro c hc
  cases hc

/-! ## The words below a node -/

def words : TrieNode → List Word
  | .null => []
  | .node children is_end =>
    (if is_end then [[]] else []) ++ (List.finRange 26).flatMap fun i => (words (children i)).map (letter i :: ·)

@[simp] theorem words_null : words .null = [] := rfl

@[simp] theorem words_make : words .make = [] := by
  simp [words, TrieNode.make]

@[simp] theorem words_orMake (t : TrieNode) : words t.orMake = words t := by
  cases t with
  | null => exact words_make
  | node _ _ => rfl

@[simp] theorem nil_mem_words : [] ∈ words (.node children is_end) ↔ is_end = true := by
  simp [words]

theorem cons_mem_words {i : Fin 26} (hc : index c = some i) :
    c :: w ∈ words (.node children is_end) ↔ w ∈ words (children i) := by
  simp only [words, List.mem_append, List.mem_flatMap, List.mem_finRange, List.mem_map, true_and]
  constructor
  · rintro (h | ⟨j, v, hv, heq⟩)
    · split at h <;> simp at h
    · obtain ⟨hj, rfl⟩ := List.cons_eq_cons.mp heq
      have hij : j = i := letter_inj (hj.trans (letter_index hc).symm)
      exact hij ▸ hv
  · intro h
    exact .inr ⟨i, w, h, by rw [letter_index hc]⟩

theorem sorted_words (t : TrieNode) : (words t).Pairwise (· < ·) := by
  induction t with
  | null => exact .nil
  | node children is_end ih =>
    apply List.pairwise_append.mpr
    refine ⟨?_, List.pairwise_flatMap.mpr ⟨?_, ?_⟩, ?_⟩
    · split <;> simp
    · intro i _
      apply List.pairwise_map.mpr
      apply (ih i).imp
      intro v w hlt
      exact List.cons_lt_cons_iff.mpr (.inr ⟨rfl, hlt⟩)
    · apply (List.pairwise_lt_finRange 26).imp
      intro i j hlt v hv w hw
      obtain ⟨v, -, rfl⟩ := List.mem_map.mp hv
      obtain ⟨w, -, rfl⟩ := List.mem_map.mp hw
      exact List.cons_lt_cons_iff.mpr (.inl (letter_lt hlt))
    · intro v hv w hw
      obtain ⟨i, -, hw⟩ := List.mem_flatMap.mp hw
      obtain ⟨w, -, rfl⟩ := List.mem_map.mp hw
      split at hv
      · rw [List.mem_singleton.mp hv]
        exact List.nil_lt_cons _ _
      · cases hv

theorem lower_of_mem (h : w ∈ words t) : Lower w := by
  induction t generalizing w with
  | null => cases h
  | node children is_end ih =>
    rcases List.mem_append.mp h with h | h
    · split at h
      · rw [List.mem_singleton.mp h]
        exact lower_nil
      · cases h
    · obtain ⟨i, -, h⟩ := List.mem_flatMap.mp h
      obtain ⟨v, hv, rfl⟩ := List.mem_map.mp h
      intro c hc
      rcases List.mem_cons.mp hc with rfl | hc
      · simp
        omega
      · exact ih i hv c hc

/-! ## Insertion -/

theorem orMake_ne_null (t : TrieNode) : t.orMake ≠ .null := by
  cases t with
  | null => simp [TrieNode.orMake, TrieNode.make]
  | node _ _ => simp [TrieNode.orMake]

theorem insertAt_total (hword : Lower word) (ht : t ≠ .null) : ∃ t', insertAt t word = some t' ∧ t' ≠ .null := by
  induction word generalizing t with
  | nil =>
    cases t with
    | null => exact absurd rfl ht
    | node children is_end => exact ⟨_, rfl, by simp⟩
  | cons c word ih =>
    cases t with
    | null => exact absurd rfl ht
    | node children is_end =>
      obtain ⟨⟨i, hi⟩, hword⟩ := hword.cons
      obtain ⟨child, hchild, -⟩ := ih hword (orMake_ne_null (children i))
      exact ⟨.node (Function.update children i child) is_end, by simp [insertAt, hi, hchild], by simp⟩

theorem insertAt_cons (h : insertAt (.node children is_end) (c :: word) = some t') : ∃ i child, index c = some i ∧
    insertAt (children i).orMake word = some child ∧ t' = .node (Function.update children i child) is_end := by
  simp only [insertAt, Option.bind_eq_bind, Option.bind_eq_some_iff, Option.some_inj] at h
  obtain ⟨i, hi, child, hchild, rfl⟩ := h
  exact ⟨i, child, hi, hchild, rfl⟩

theorem mem_insertAt (h : insertAt t word = some t') (hw : Lower w) : w ∈ words t' ↔ w = word ∨ w ∈ words t := by
  induction word generalizing t t' w with
  | nil =>
    cases t with
    | null => cases h
    | node children is_end =>
      cases h
      cases w with
      | nil => simp
      | cons d w =>
        obtain ⟨⟨j, hj⟩, -⟩ := hw.cons
        rw [cons_mem_words hj, cons_mem_words hj]
        simp
  | cons c word ih =>
    cases t with
    | null => cases h
    | node children is_end =>
      obtain ⟨i, child, hi, hchild, rfl⟩ := insertAt_cons h
      cases w with
      | nil => simp
      | cons d w =>
        obtain ⟨⟨j, hj⟩, hw⟩ := hw.cons
        rw [cons_mem_words hj, cons_mem_words hj]
        by_cases hij : j = i
        · subst hij
          have hcd : d = c := (letter_index hj).symm.trans (letter_index hi)
          rw [Function.update_self, ih hchild hw, words_orMake, hcd]
          simp
        · have hcd : d ≠ c := by
            intro heq
            rw [heq, hi] at hj
            exact hij (Option.some_inj.mp hj).symm
          rw [Function.update_of_ne hij]
          simp [hcd]

theorem inserts_total {t : Trie} (ht : t.root ≠ .null) (hws : ∀ w ∈ ws, Lower w) :
    ∃ t', ws.foldlM insert t = some t' ∧ t'.root ≠ .null ∧
      ∀ w, Lower w → (w ∈ words t'.root ↔ w ∈ ws ∨ w ∈ words t.root) := by
  induction ws generalizing t with
  | nil => exact ⟨t, rfl, ht, fun w _ => by simp⟩
  | cons word ws ih =>
    obtain ⟨root, hroot, hne⟩ := insertAt_total (hws word List.mem_cons_self) ht
    obtain ⟨t', hrun, ht', hmem⟩ := ih (t := ⟨root⟩) hne fun w hw => hws w (List.mem_cons_of_mem word hw)
    refine ⟨t', ?_, ht', fun w hw => ?_⟩
    · simp [insert, hroot, hrun]
    · rw [hmem w hw, mem_insertAt hroot hw, List.mem_cons]
      tauto

/-! ## Traversal -/

theorem traverse_total (hkey : Lower key) (ht : t ≠ .null) :
    ∃ node, traverse t key = some node ∧ ∀ w, w ∈ words node ↔ key ++ w ∈ words t := by
  induction key generalizing t with
  | nil => exact ⟨t, by simp [traverse], fun w => Iff.rfl⟩
  | cons c key ih =>
    cases t with
    | null => exact absurd rfl ht
    | node children is_end =>
      obtain ⟨⟨i, hi⟩, hkey⟩ := hkey.cons
      by_cases hnull : children i = .null
      · refine ⟨.null, by simp [traverse, hi, hnull, TrieNode.isNull], fun w => ?_⟩
        rw [List.cons_append, cons_mem_words hi, hnull]
        simp
      · obtain ⟨node, hrun, hmem⟩ := ih hkey hnull
        have hfound : (children i).isNull = false := by
          cases hchild : children i with
          | null => exact absurd hchild hnull
          | node _ _ => rfl
        refine ⟨node, by simp [traverse, hi, hfound, hrun], fun w => ?_⟩
        rw [List.cons_append, cons_mem_words hi]
        exact hmem w

/-! ## Collecting words -/

theorem take_take_append {α : Type} (k : Nat) (l l' : List α) : (l.take k ++ l').take k = (l ++ l').take k := by
  by_cases h : l.length ≤ k
  · rw [List.take_of_length_le h]
  · have hk : k ≤ (l.take k).length := by simp; omega
    rw [List.take_append_of_le_length hk, List.take_append_of_le_length (by omega), List.take_take, Nat.min_self]

/-- The results after words were appended, but for those beyond the limit. -/
def Search.add (s : Search) (k : Nat) (ws : List Word) : Search :=
  { s with results := (s.results ++ ws.map (s.current ++ ·)).take k }

@[simp] theorem add_nil {s : Search} {k : Nat} (hs : s.results.length ≤ k) : s.add k [] = s := by
  simp [Search.add, List.take_of_length_le hs]

theorem add_add (s : Search) (k : Nat) (ws ws' : List Word) : (s.add k ws).add k ws' = s.add k (ws ++ ws') := by
  simp only [Search.add, take_take_append, List.map_append, List.append_assoc]

theorem add_full {s : Search} {k : Nat} (hs : s.results.length = k) (ws : List Word) : s.add k ws = s := by
  simp [Search.add, List.take_append_of_le_length (Nat.le_of_eq hs.symm), List.take_of_length_le (Nat.le_of_eq hs)]

theorem length_add_le (s : Search) (k : Nat) (ws : List Word) : (s.add k ws).results.length ≤ k := by
  simp [Search.add]

theorem foldl_add {α : Type} {k : Nat} {f : Search → α → Search} {g : α → List Word}
    (hf : ∀ s a, s.results.length ≤ k → f s a = s.add k (g a)) (l : List α) (s : Search)
    (hs : s.results.length ≤ k) :
    l.foldl f s = s.add k (l.flatMap g) := by
  induction l generalizing s with
  | nil => simp [hs]
  | cons a l ih => rw [List.foldl_cons, hf s a hs, ih _ (length_add_le s k (g a)), add_add, List.flatMap_cons]

/-- Words are appended in order until the limit is reached, and the string is what it was. -/
theorem collectWords_eq {max_results : Int} (hmax : max_results < 2 ^ 31) (t : TrieNode) (s : Search)
    (hs : s.results.length ≤ max_results.toNat) :
    collectWords max_results t s = s.add max_results.toNat (words t) := by
  induction t generalizing s with
  | null => simp [collectWords, hs]
  | node children is_end ih =>
    rw [collectWords, CInt.ofSize_of_lt (by omega)]
    by_cases hfull : max_results ≤ s.results.length
    · rw [if_pos hfull, add_full (by omega)]
    · have hend : (if is_end then { s with results := s.results ++ [s.current] } else s) =
          s.add max_results.toNat (if is_end then [[]] else []) := by
        cases is_end with
        | false => simp [hs]
        | true =>
          have hlen : (s.results ++ [s.current]).length ≤ max_results.toNat := by simp; omega
          simp [Search.add, List.take_of_length_le hlen]
      rw [if_neg hfull, hend, words, ← add_add]
      apply foldl_add _ _ _ (length_add_le _ _ _)
      intro s i hs
      cases hchild : children i with
      | null => simp [TrieNode.isNull, hs]
      | node _ _ =>
        rw [← hchild, ih i { current := s.current ++ [letter i], results := s.results } hs]
        simp [hchild, TrieNode.isNull, Search.add, Function.comp_def]

theorem autocomplete_eq {t : Trie} {max_results : Int} (hmax : max_results < 2 ^ 31)
    (hrun : traverse t.root prefix_ = some node) :
    autocomplete t prefix_ max_results = some (((words node).map (prefix_ ++ ·)).take max_results.toNat) := by
  cases node with
  | null => simp [autocomplete, hrun, TrieNode.isNull]
  | node children is_end => simp [autocomplete, hrun, TrieNode.isNull, collectWords_eq hmax, Search.add]

theorem search_iff {t : Trie} (hrun : traverse t.root key = some node) :
    ∃ b, search t key = some b ∧ (b = true ↔ [] ∈ words node) := by
  cases node with
  | null => exact ⟨false, by simp [search, hrun], by simp⟩
  | node children is_end => exact ⟨is_end, by simp [search, hrun], by simp⟩

theorem inserts_words (ws : List Word) (hws : ∀ w ∈ ws, Lower w) :
    ∃ t, ws.foldlM insert {} = some t ∧ t.root ≠ .null ∧ ∀ w, w ∈ words t.root ↔ w ∈ ws := by
  obtain ⟨t, hrun, ht, hmem⟩ := inserts_total (t := {}) (by simp [TrieNode.make]) hws
  refine ⟨t, hrun, ht, fun w => ?_⟩
  have hiff : Lower w → (w ∈ words t.root ↔ w ∈ ws) := fun hw => by simpa using hmem w hw
  exact ⟨fun h => (hiff (lower_of_mem h)).mp h, fun h => (hiff (hws w h)).mpr h⟩

theorem completions {t : TrieNode} (hmem : ∀ w, w ∈ words t ↔ w ∈ ws)
    (hsuffix : ∀ w, w ∈ words node ↔ prefix_ ++ w ∈ words t) :
    Completions ws prefix_ ((words node).map (prefix_ ++ ·)) := by
  refine ⟨List.pairwise_map.mpr ((sorted_words node).imp List.append_left_lt), fun w => ?_⟩
  rw [List.mem_map]
  constructor
  · rintro ⟨v, hv, rfl⟩
    exact ⟨(hmem _).mp ((hsuffix v).mp hv), List.prefix_append _ _⟩
  · rintro ⟨hw, v, rfl⟩
    exact ⟨v, (hsuffix v).mpr ((hmem _).mpr hw), rfl⟩

/-- **A trie is a dictionary**: a search tells whether its word was inserted, and completions come in lexicographic
order, each once, up to the limit. -/
theorem dictionary (ws : List Word) (hws : ∀ w ∈ ws, Lower w) (key prefix_ : Word) (hkey : Lower key)
    (hlower : Lower prefix_) (max_results : Int) (hmax : max_results < 2 ^ 31) :
    ∃ t, ws.foldlM insert {} = some t ∧ (∃ b, search t key = some b ∧ (b = true ↔ key ∈ ws)) ∧
      ∃ l, Completions ws prefix_ l ∧ autocomplete t prefix_ max_results = some (l.take max_results.toNat) := by
  obtain ⟨t, hrun, ht, hmem⟩ := inserts_words ws hws
  obtain ⟨node, hnode, hsuffix⟩ := traverse_total hkey ht
  obtain ⟨b, hb, hiff⟩ := search_iff hnode
  obtain ⟨node', hnode', hsuffix'⟩ := traverse_total hlower ht
  refine ⟨t, hrun, ⟨b, hb, ?_⟩, _, completions hmem hsuffix', autocomplete_eq hmax hnode'⟩
  rw [hiff, hsuffix, List.append_nil, hmem]

theorem dictionary_app : ∃ t, [[98], [97, 112, 112], [97, 112]].foldlM insert {} = some t ∧
    (∃ b, search t [97] = some b ∧ (b = true ↔ [97] ∈ ([[98], [97, 112, 112], [97, 112]] : List Word))) ∧
      ∃ l, Completions [[98], [97, 112, 112], [97, 112]] [97] l ∧
        autocomplete t [97] 1 = some (l.take (Int.toNat 1)) :=
  dictionary [[98], [97, 112, 112], [97, 112]] (by simp [Lower]) [97] [97] (by simp [Lower])
    (by simp [Lower]) 1 (by decide)

/-! ## Prefixes -/

/-- Every node below this one has a word. -/
def Grown : TrieNode → Prop
  | .null => True
  | .node children _ => ∀ i, children i ≠ .null → words (children i) ≠ [] ∧ Grown (children i)

theorem grown_make : Grown .make := fun _ h => absurd rfl h

theorem Grown.orMake (h : Grown t) : Grown t.orMake := by
  cases t with
  | null => exact grown_make
  | node _ _ => exact h

theorem Grown.child (h : Grown (.node children is_end)) (i : Fin 26) : Grown (children i) := by
  by_cases hnull : children i = .null
  · rw [hnull]
    trivial
  · exact (h i hnull).2

theorem Grown.insertAt (h : Grown t) (hword : Lower word) (hrun : insertAt t word = some t') : Grown t' := by
  induction word generalizing t t' with
  | nil =>
    cases t with
    | null => cases hrun
    | node children is_end =>
      cases hrun
      exact h
  | cons c word ih =>
    cases t with
    | null => cases hrun
    | node children is_end =>
      obtain ⟨-, hword⟩ := hword.cons
      obtain ⟨i, child, hi, hchild, rfl⟩ := insertAt_cons hrun
      intro j hj
      by_cases hij : j = i
      · subst hij
        rw [Function.update_self]
        have hmem : word ∈ words child := (mem_insertAt hchild hword).mpr (.inl rfl)
        exact ⟨List.ne_nil_of_mem hmem, ih (h.child j).orMake hword hchild⟩
      · rw [Function.update_of_ne hij] at hj ⊢
        exact h j hj

theorem Grown.inserts {t t' : Trie} (h : Grown t.root) (hws : ∀ w ∈ ws, Lower w)
    (hrun : ws.foldlM insert t = some t') : Grown t'.root := by
  induction ws generalizing t with
  | nil =>
    cases hrun
    exact h
  | cons word ws ih =>
    rw [List.foldlM_cons] at hrun
    obtain ⟨t₁, hrun₁, hruns⟩ := Option.bind_eq_some_iff.mp hrun
    obtain ⟨root, hroot, heq⟩ := Option.bind_eq_some_iff.mp hrun₁
    cases heq
    exact ih (h.insertAt (hws word List.mem_cons_self) hroot)
      (fun w hw => hws w (List.mem_cons_of_mem word hw)) hruns

/-- A node that a key leads to has a word, if it is not the root. -/
theorem Grown.traverse (h : Grown t) (hrun : traverse t key = some node) (hkey : key ≠ []) (hnode : node ≠ .null) :
    words node ≠ [] := by
  induction key generalizing t with
  | nil => exact absurd rfl hkey
  | cons c key ih =>
    cases t with
    | null => cases hrun
    | node children is_end =>
      simp only [Trie.traverse, Option.bind_eq_bind, Option.bind_eq_some_iff] at hrun
      obtain ⟨i, hi, hrun⟩ := hrun
      split at hrun
      · cases hrun
        exact absurd rfl hnode
      · cases key with
        | nil =>
          have hnode' : children i = node := by simpa [Trie.traverse] using hrun
          subst hnode'
          exact (h i hnode).1
        | cons d key => exact ih (h.child i) hrun (List.cons_ne_nil d key)

theorem startsWith_true {t : Trie} (hrun : traverse t.root prefix_ = some node) :
    ∃ b, startsWith t prefix_ = some b ∧ (b = true ↔ node ≠ .null) := by
  cases node with
  | null => exact ⟨false, by simp [startsWith, hrun, TrieNode.isNull], by simp⟩
  | node _ _ => exact ⟨true, by simp [startsWith, hrun, TrieNode.isNull], by simp⟩

theorem Completions.exists_iff {l : List Word} (h : Completions ws prefix_ l) :
    (∃ w ∈ ws, prefix_ <+: w) ↔ l ≠ [] := by
  constructor
  · rintro ⟨w, hw, hp⟩
    exact List.ne_nil_of_mem ((h.mem w).mpr ⟨hw, hp⟩)
  · intro hne
    obtain ⟨w, hw⟩ := List.exists_mem_of_ne_nil l hne
    exact ⟨w, (h.mem w).mp hw⟩

/-- **Whether some word starts with a prefix** is told right but for the empty prefix and a trie without words: the
root is there from the beginning. -/
theorem startsWith_iff (ws : List Word) (hws : ∀ w ∈ ws, Lower w) (prefix_ : Word) (hlower : Lower prefix_) :
    ∃ t b, ws.foldlM insert {} = some t ∧ startsWith t prefix_ = some b ∧
      ((b = true ↔ ∃ w ∈ ws, prefix_ <+: w) ↔ ws ≠ [] ∨ prefix_ ≠ []) := by
  obtain ⟨t, hrun, ht, hmem⟩ := inserts_words ws hws
  obtain ⟨node, hnode, hsuffix⟩ := traverse_total hlower ht
  obtain ⟨b, hb, hnull⟩ := startsWith_true hnode
  refine ⟨t, b, hrun, hb, ?_⟩
  rw [hnull, (completions hmem hsuffix).exists_iff, ne_eq (List.map _ _), List.map_eq_nil_iff]
  by_cases hp : prefix_ = []
  · -- The node is the root.
    subst hp
    have hroot : t.root = node := by simpa [traverse] using hnode
    subst hroot
    have hwords : words t.root = [] ↔ ws = [] := by
      simp only [List.eq_nil_iff_forall_not_mem, hmem]
    simp [ht, hwords]
  · have hgrown : Grown t.root := Grown.inserts (t := {}) grown_make hws hrun
    apply iff_of_true _ (.inr hp)
    constructor
    · exact hgrown.traverse hnode hp
    · rintro hne rfl
      exact hne rfl

theorem startsWith_iff_bat : ∃ t b, ([[98, 97, 116]] : List Word).foldlM insert {} = some t ∧
    startsWith t [98, 97] = some b ∧ ((b = true ↔ ∃ w ∈ ([[98, 97, 116]] : List Word), [98, 97] <+: w) ↔
      ([[98, 97, 116]] : List Word) ≠ [] ∨ ([98, 97] : Word) ≠ []) :=
  startsWith_iff [[98, 97, 116]] (by simp [Lower]) [98, 97] (by simp [Lower])

theorem startsWith_nil : ¬ ∀ ws : List Word, (∀ w ∈ ws, Lower w) → ∀ prefix_, Lower prefix_ →
    ∃ t b, ws.foldlM insert {} = some t ∧ startsWith t prefix_ = some b ∧
      (b = true ↔ ∃ w ∈ ws, prefix_ <+: w) := by
  intro h
  obtain ⟨t, b, hrun, hb, hiff⟩ := h [] (fun w hw => (by cases hw)) [] lower_nil
  cases hrun
  cases hb
  obtain ⟨w, hw, -⟩ := hiff.mp rfl
  cases hw

end Playground.Trie
