import Mathlib.Data.Finset.Card
import Mathlib.Data.List.Nodup
import Playground.HashMap

/-!
# The hash map is a partial function

`Table hash m f`: the entries of `m` are the graph of `f`, each in its bucket
and no key twice. An operation changes the entry of one key and permutes the
others at most (`Table.alter`); rehashing only permutes.
-/

namespace Playground.HashMap

section
variable {K V : Type}

def entries (m : HashMap K V) : List (K × V) := m.buckets.flatten

def Placed (hash : K → Nat) (buckets : List (List (K × V))) : Prop :=
  ∀ i bucket, buckets[i]? = some bucket → ∀ e ∈ bucket, hash e.1 % buckets.length = i

structure Table (hash : K → Nat) (m : HashMap K V) (f : K → Option V) : Prop where
  pos : 0 < m.buckets.length
  placed : Placed hash m.buckets
  nodup : ((entries m).map Prod.fst).Nodup
  size : m.size = (entries m).length
  graph : ∀ k v, f k = some v ↔ (k, v) ∈ entries m

/-! ## Buckets -/

section
variable {α : Type}

theorem set_split {l : List α} {i : Nat} {a : α} (h : l[i]? = some a) :
    ∃ l₁ l₂, l₁.length = i ∧ l = l₁ ++ a :: l₂ ∧ ∀ b, l.set i b = l₁ ++ b :: l₂ := by
  obtain ⟨hi, rfl⟩ := List.getElem?_eq_some_iff.mp h
  refine ⟨l.take i, l.drop (i + 1), List.length_take_of_le (Nat.le_of_lt hi), ?_, fun b => ?_⟩
  · rw [← List.drop_eq_getElem_cons hi, List.take_append_drop]
  · rw [List.set_eq_take_append_cons_drop, if_pos hi]

end

theorem placed_set {hash : K → Nat} {bs : List (List (K × V))} (h : Placed hash bs) {i : Nat} {b : List (K × V)}
    (hb : ∀ e ∈ b, hash e.1 % bs.length = i) : Placed hash (bs.set i b) := by
  intro j c hc e he
  rw [List.length_set]
  rw [List.getElem?_set] at hc
  split at hc
  · rename_i hij
    split at hc
    · rw [← Option.some.inj hc] at he
      exact (hb e he).trans hij
    · cases hc
  · exact h j c hc e he

section
variable {hash : K → Nat} {m m' : HashMap K V} {f : K → Option V}

theorem Table.mem_bucket (h : Table hash m f) {e : K × V} :
    e ∈ entries m ↔ ∃ b, m.buckets[bucketIndex hash m e.1]? = some b ∧ e ∈ b := by
  unfold entries
  rw [List.mem_flatten]
  constructor
  · intro ⟨b, hb, he⟩
    obtain ⟨i, hi⟩ := List.mem_iff_getElem?.mp hb
    have := h.placed i b hi e he
    exact ⟨b, by rw [bucketIndex, this, hi], he⟩
  · intro ⟨b, hb, he⟩
    exact ⟨b, List.mem_of_getElem? hb, he⟩

theorem Table.bucket (h : Table hash m f) (k : K) : ∃ b, m.buckets[bucketIndex hash m k]? = some b :=
  ⟨_, List.getElem?_eq_getElem (Nat.mod_lt _ h.pos)⟩

theorem Table.absent (h : Table hash m f) {k : K} (hf : f k = none) : ∀ e ∈ entries m, e.1 ≠ k := by
  rintro ⟨k', v⟩ he rfl
  rw [(h.graph k' v).mpr he] at hf
  cases hf

theorem Table.others (h : Table hash m f) {k : K} {v : V} {rest : List (K × V)}
    (he : (entries m).Perm ((k, v) :: rest)) : ∀ e ∈ rest, e.1 ≠ k := by
  have hnd := (he.map Prod.fst).nodup_iff.mp h.nodup
  exact fun e hm hk => (List.nodup_cons.mp hnd).1 (List.mem_map.mpr ⟨e, hm, hk⟩)

variable [DecidableEq K]

theorem Table.alter (h : Table hash m f) {k : K} (o o' : Option V) {rest : List (K × V)}
    (he : (entries m).Perm (o.toList.map (Prod.mk k) ++ rest))
    (he' : (entries m').Perm (o'.toList.map (Prod.mk k) ++ rest))
    (hk : ∀ e ∈ rest, e.1 ≠ k) (hpos : 0 < m'.buckets.length) (hplaced : Placed hash m'.buckets)
    (hsize : m'.size + o.toList.length = m.size + o'.toList.length) : Table hash m' (Function.update f k o') where
  pos := hpos
  placed := hplaced
  nodup := by
    have hnd := (he.map Prod.fst).nodup_iff.mp h.nodup
    rw [List.map_append, List.nodup_append] at hnd
    rw [(he'.map Prod.fst).nodup_iff, List.map_append, List.nodup_append]
    refine ⟨?_, hnd.2.1, ?_⟩
    · cases o' <;> simp
    · intro a ha b hb
      obtain ⟨e, he, rfl⟩ := List.mem_map.mp hb
      obtain ⟨p, hp, rfl⟩ := List.mem_map.mp ha
      obtain ⟨v, _, rfl⟩ := List.mem_map.mp hp
      exact (hk e he).symm
  size := by
    have h₁ := he.length_eq
    have h₂ := he'.length_eq
    have h₃ := h.size
    rw [List.length_append, List.length_map] at h₁ h₂
    omega
  graph := by
    intro k' v
    rw [he'.mem_iff, List.mem_append]
    by_cases hkk : k' = k
    · subst hkk
      have hr : (k', v) ∉ rest := fun hm => hk _ hm rfl
      rw [Function.update_self, or_iff_left hr]
      cases o' <;> simp [eq_comm]
    · have hn : ∀ o : Option V, (k', v) ∉ o.toList.map (Prod.mk k) := by
        intro o hm
        obtain ⟨w, _, hw⟩ := List.mem_map.mp hm
        exact hkk (Prod.mk.inj hw).1.symm
      rw [Function.update_of_ne hkk, or_iff_right (hn o'), h.graph, he.mem_iff, List.mem_append,
        or_iff_right (hn o)]

theorem Table.locate (h : Table hash m f) (k : K) :
    (f k = none ∧ locate hash m k = some none) ∨
      ∃ v ref, f k = some v ∧ locate hash m k = some (some ref) ∧ entryAt m ref = some (k, v) := by
  obtain ⟨b, hb⟩ := h.bucket k
  unfold HashMap.locate
  simp only [hb, Option.bind_eq_bind, Option.bind_some]
  cases hi : b.findIdx? fun entry => entry.1 = k with
  | none =>
    refine Or.inl ⟨?_, rfl⟩
    rw [List.findIdx?_eq_none_iff] at hi
    cases hf : f k with
    | none => rfl
    | some v =>
      obtain ⟨b', hb', he⟩ := h.mem_bucket.mp ((h.graph k v).mp hf)
      obtain rfl := Option.some.inj (hb.symm.trans hb')
      simpa using hi _ he
  | some i =>
    obtain ⟨hlt, hk, _⟩ := List.findIdx?_eq_some_iff_getElem.mp hi
    have hk' : b[i].1 = k := of_decide_eq_true hk
    refine Or.inr ⟨b[i].2, ⟨bucketIndex hash m k, i⟩, ?_, rfl, ?_⟩
    · rw [h.graph, h.mem_bucket]
      exact ⟨b, hb, hk' ▸ List.getElem_mem hlt⟩
    · rw [entryAt, hb, Option.bind_some, List.getElem?_eq_getElem hlt, ← hk']

/-! ## Writes -/

theorem Table.store (h : Table hash m f) {k : K} {v : V} {ref : Ref} (he : entryAt m ref = some (k, v)) (w : V) :
    ∃ m', store m ref w = some m' ∧ Table hash m' (Function.update f k (some w)) ∧
      entryAt m' ref = some (k, w) := by
  obtain ⟨b, hb, hp⟩ := Option.bind_eq_some_iff.mp he
  obtain ⟨l₁, l₂, _, hl, hset⟩ := set_split hb
  obtain ⟨b₁, b₂, _, hbs, hbset⟩ := set_split hp
  have hi : ref.bucket < m.buckets.length := (List.getElem?_eq_some_iff.mp hb).1
  have hj : ref.pos < b.length := (List.getElem?_eq_some_iff.mp hp).1
  have hperm : ∀ x : K × V, (l₁ ++ (b₁ ++ x :: b₂) :: l₂).flatten.Perm
    (x :: (l₁.flatten ++ b₁ ++ b₂ ++ l₂.flatten)) := by
    intro x
    rw [List.flatten_append, List.flatten_cons]
    simp only [List.append_assoc, List.cons_append]
    rw [← List.append_assoc]
    exact List.perm_middle.trans (by rw [List.append_assoc])
  have hm : (entries m).Perm ((k, v) :: (l₁.flatten ++ b₁ ++ b₂ ++ l₂.flatten)) := by
    rw [entries, hl, hbs]
    exact hperm (k, v)
  refine ⟨{ m with buckets := m.buckets.set ref.bucket (b.set ref.pos (k, w)) }, ?_, ?_, ?_⟩
  · unfold HashMap.store
    simp only [hb, hp, Option.bind_eq_bind, Option.bind_some]
  · refine h.alter (some v) (some w) hm ?_ (h.others hm) ?_ ?_ rfl
    · show (m.buckets.set ref.bucket (b.set ref.pos (k, w))).flatten.Perm _
      rw [hset, hbset]
      exact hperm (k, w)
    · exact (List.length_set ..).symm ▸ h.pos
    · apply placed_set h.placed
      intro e hm
      have hk := h.placed _ b hb
      rcases List.mem_or_eq_of_mem_set hm with hm | rfl
      · exact hk e hm
      · exact hk (k, v) (List.mem_of_getElem? hp)
  · simp [entryAt, hi, hj]

theorem Table.emplaceBack (h : Table hash m f) {k : K} (hf : f k = none) (v : V) :
    ∃ m' ref, emplaceBack m (bucketIndex hash m k) k v = some m' ∧ Table hash m' (Function.update f k (some v)) ∧
      back m' (bucketIndex hash m k) = some ref ∧ entryAt m' ref = some (k, v) := by
  obtain ⟨b, hb⟩ := h.bucket k
  obtain ⟨l₁, l₂, _, hl, hset⟩ := set_split hb
  have hi : bucketIndex hash m k < m.buckets.length := (List.getElem?_eq_some_iff.mp hb).1
  refine ⟨⟨m.buckets.set (bucketIndex hash m k) (b ++ [(k, v)]), m.size + 1⟩, ⟨bucketIndex hash m k, b.length⟩,
    ?_, ?_, ?_, ?_⟩
  · unfold HashMap.emplaceBack
    simp only [hb, Option.bind_eq_bind, Option.bind_some]
  · refine h.alter none (some v) (List.Perm.refl _) ?_ (h.absent hf) ?_ ?_ rfl
    · show (m.buckets.set _ _).flatten.Perm ((k, v) :: m.buckets.flatten)
      rw [hset, hl]
      simp only [List.flatten_append, List.flatten_cons, List.append_assoc, List.cons_append, List.nil_append]
      rw [← List.append_assoc, ← List.append_assoc]
      exact List.perm_middle
    · exact (List.length_set ..).symm ▸ h.pos
    · apply placed_set h.placed
      intro e hm
      rcases List.mem_append.mp hm with hm | hm
      · exact h.placed _ b hb e hm
      · rw [List.mem_singleton.mp hm]
        rfl
  · simp [back, hi]
  · simp [entryAt, hi]

theorem Table.erase (h : Table hash m f) (k : K) :
    ∃ m', erase hash m k = some (m', (f k).isSome) ∧ Table hash m' (Function.update f k none) := by
  unfold HashMap.erase
  rcases h.locate k with ⟨hf, hloc⟩ | ⟨v, ref, hf, hloc, he⟩
  · refine ⟨m, by simp [hloc, hf], ?_⟩
    rw [← hf, Function.update_eq_self]
    exact h
  · obtain ⟨b, hb, hp⟩ := Option.bind_eq_some_iff.mp he
    obtain ⟨l₁, l₂, _, hl, hset⟩ := set_split hb
    obtain ⟨b₁, b₂, hlen, hbs, _⟩ := set_split hp
    have hbe : b.eraseIdx ref.pos = b₁ ++ b₂ := by
      rw [hbs, ← hlen, List.eraseIdx_append_of_length_le (Nat.le_refl _), Nat.sub_self]
      rfl
    have hm : (entries m).Perm ((k, v) :: (l₁.flatten ++ (b₁ ++ b₂) ++ l₂.flatten)) := by
      rw [entries, hl, hbs]
      simp only [List.flatten_append, List.flatten_cons, List.append_assoc, List.cons_append]
      rw [← List.append_assoc]
      exact List.perm_middle.trans (by rw [List.append_assoc])
    refine ⟨_, by simp only [hloc, hb, hf, Option.bind_eq_bind, Option.bind_some]; rfl, ?_⟩
    refine h.alter (some v) none hm ?_ (h.others hm) ?_ ?_ ?_
    · show (m.buckets.set ref.bucket (b.eraseIdx ref.pos)).flatten.Perm _
      rw [hset, hbe, List.flatten_append, List.flatten_cons, ← List.append_assoc]
      exact List.Perm.refl _
    · exact (List.length_set ..).symm ▸ h.pos
    · exact placed_set h.placed fun e hm => h.placed _ b hb e (List.mem_of_mem_eraseIdx hm)
    · have h₁ := hm.length_eq
      have h₂ := h.size
      rw [List.length_cons] at h₁
      show m.size - 1 + 1 = m.size + 0
      omega

end

/-! ## Rehashing -/

section
variable (hash : K → Nat)

theorem place_split {bs : List (List (K × V))} (hpos : 0 < bs.length) (e : K × V) : ∃ b l₁ l₂,
    bs[hash e.1 % bs.length]? = some b ∧ place hash bs e = bs.set (hash e.1 % bs.length) (b ++ [e]) ∧
      bs = l₁ ++ b :: l₂ ∧ place hash bs e = l₁ ++ (b ++ [e]) :: l₂ := by
  have hi : hash e.1 % bs.length < bs.length := Nat.mod_lt _ hpos
  have hb := List.getElem?_eq_getElem hi
  have hplace : place hash bs e = bs.set (hash e.1 % bs.length) (bs[hash e.1 % bs.length] ++ [e]) := by
    rw [place, List.modify_eq_set_getElem?, hb]
    rfl
  obtain ⟨l₁, l₂, _, hl, hset⟩ := set_split hb
  exact ⟨_, l₁, l₂, hb, hplace, hl, by rw [hplace, hset]⟩

theorem foldl_place (es : List (K × V)) (bs : List (List (K × V))) (hpos : 0 < bs.length) (hp : Placed hash bs) :
    (es.foldl (place hash) bs).length = bs.length ∧ Placed hash (es.foldl (place hash) bs) ∧
      (es.foldl (place hash) bs).flatten.Perm (es ++ bs.flatten) := by
  induction es generalizing bs with
  | nil => exact ⟨rfl, hp, List.Perm.refl _⟩
  | cons e es ih =>
    obtain ⟨b, l₁, l₂, hb, hset, hl, hsplit⟩ := place_split hash hpos e
    have hlen : (place hash bs e).length = bs.length := by rw [hset, List.length_set]
    have hplaced : Placed hash (place hash bs e) := by
      rw [hset]
      apply placed_set hp
      intro e' he
      rcases List.mem_append.mp he with he | he
      · exact hp _ b hb e' he
      · rw [List.mem_singleton.mp he]
    have hperm : (place hash bs e).flatten.Perm (e :: bs.flatten) := by
      rw [hsplit, hl]
      simp only [List.flatten_append, List.flatten_cons, List.append_assoc, List.cons_append, List.nil_append]
      rw [← List.append_assoc, ← List.append_assoc]
      exact List.perm_middle
    obtain ⟨h₁, h₂, h₃⟩ := ih _ (hlen ▸ hpos) hplaced
    refine ⟨h₁.trans hlen, h₂, h₃.trans ?_⟩
    exact (List.Perm.append_left es hperm).trans List.perm_middle

theorem placed_replicate (n : Nat) : Placed hash (List.replicate n ([] : List (K × V))) := by
  intro i b hb e he
  obtain ⟨_, hb⟩ := List.getElem?_eq_some_iff.mp hb
  rw [List.getElem_replicate] at hb
  exact absurd (hb ▸ he) List.not_mem_nil

theorem rehash_spec (m : HashMap K V) {n : Nat} (hn : 0 < n) : (rehash hash m n).buckets.length = n ∧
    Placed hash (rehash hash m n).buckets ∧ (entries (rehash hash m n)).Perm (entries m) := by
  have h := foldl_place hash (entries m) (List.replicate n []) (by simpa using hn) (placed_replicate hash n)
  rw [entries, List.foldl_flatten, List.length_replicate, List.flatten_replicate_nil, List.append_nil] at h
  exact h

end

section
variable {hash : K → Nat} {m m' : HashMap K V} {f : K → Option V}

theorem Table.rehash (h : Table hash m f) {n : Nat} (hn : 0 < n) : Table hash (rehash hash m n) f := by
  obtain ⟨hlen, hp, hperm⟩ := rehash_spec hash m hn
  exact {
    pos := by rw [hlen]; exact hn
    placed := hp
    nodup := (hperm.map Prod.fst).nodup_iff.mpr h.nodup
    size := h.size.trans hperm.length_eq.symm
    graph := fun k v => (h.graph k v).trans hperm.mem_iff.symm }

theorem Table.double_pos (h : Table hash m f) : 0 < m.buckets.length * 2 := Nat.mul_pos h.pos Nat.zero_lt_two

variable [DecidableEq K]

theorem Table.size_eq (h : Table hash m f) :
    ∃ keys : Finset K, (∀ k, k ∈ keys ↔ f k ≠ none) ∧ m.size = keys.card := by
  refine ⟨((entries m).map Prod.fst).toFinset, fun k => ?_, ?_⟩
  · rw [List.mem_toFinset, List.mem_map, Option.ne_none_iff_exists']
    constructor
    · rintro ⟨⟨k, v⟩, he, rfl⟩
      exact ⟨v, (h.graph k v).mpr he⟩
    · intro ⟨v, hv⟩
      exact ⟨(k, v), (h.graph k v).mp hv, rfl⟩
  · rw [List.toFinset_card_of_nodup h.nodup, List.length_map]
    exact h.size

/-! ## The operations -/

theorem Table.insert (h : Table hash m f) (k : K) (v : V) :
    ∃ m', insert hash m k v = some m' ∧ Table hash m' (Function.update f k (some v)) := by
  unfold HashMap.insert
  rcases h.locate k with ⟨hf, hloc⟩ | ⟨_, ref, _, hloc, he⟩
  · obtain ⟨m', _, hm, h', _⟩ := h.emplaceBack hf v
    simp only [hloc, hm, Option.bind_eq_bind, Option.bind_some]
    split
    · exact ⟨_, rfl, h'.rehash h'.double_pos⟩
    · exact ⟨m', rfl, h'⟩
  · obtain ⟨m', hm, h', _⟩ := h.store he v
    exact ⟨m', by simp only [hloc, hm, Option.bind_eq_bind, Option.bind_some], h'⟩

theorem Table.find (h : Table hash m f) (k : K) : find hash m k = some (f k) := by
  unfold HashMap.find
  rcases h.locate k with ⟨hf, hloc⟩ | ⟨v, ref, hf, hloc, he⟩
  · simp only [hloc, hf, Option.bind_eq_bind, Option.bind_some]
  · simp only [hloc, he, hf, Option.bind_eq_bind, Option.bind_some]

theorem Table.subscript [Inhabited V] (h : Table hash m f) (k : K) : ∃ m' ref,
    subscript hash m (.outside k) = some (m', ref) ∧ entryAt m' ref = some (k, (f k).getD default) ∧
      Table hash m' (Function.update f k (some ((f k).getD default))) := by
  unfold HashMap.subscript
  rcases h.locate k with ⟨hf, hloc⟩ | ⟨v, ref, hf, hloc, he⟩
  · obtain ⟨m₁, ref, hm, h₁, hback, he⟩ := h.emplaceBack hf default
    simp only [Arg.read_outside, hloc, hm, hf, Option.getD_none, Option.bind_eq_bind, Option.bind_some]
    split
    · have h₂ := h₁.rehash h₁.double_pos
      rcases h₂.locate k with ⟨hf', _⟩ | ⟨v, ref, hf', hloc', he'⟩
      · rw [Function.update_self] at hf'
        cases hf'
      · rw [Function.update_self] at hf'
        obtain rfl := Option.some.inj hf'
        simp only [hloc']
        exact ⟨_, ref, rfl, he', h₂⟩
    · exact ⟨m₁, ref, by rw [hback]; rfl, he, h₁⟩
  · simp only [Arg.read_outside, hloc, hf, Option.getD_some, Option.bind_eq_bind, Option.bind_some]
    refine ⟨m, ref, rfl, he, ?_⟩
    rw [← hf, Function.update_eq_self]
    exact h

end

/-! ## Runs -/

/-- The partial function that the calls compute. -/
def partialFunction (K V : Type) [DecidableEq K] [Inhabited V] : Spec (K → Option V) (Call K V) (Result V) where
  init := fun _ => none
  step f
    | .insert key value => (Function.update f key (some value), .none)
    | .find key => (f, .found (f key))
    | .erase key => (Function.update f key none, .erased (f key).isSome)
    | .subscript key write =>
      let value := (f key).getD default
      (Function.update f key (some (write.getD value)), .value value)

theorem table_init (hash : K → Nat) {n : Nat} (hn : 0 < n) :
    Table hash ({ buckets := List.replicate n [] } : HashMap K V) fun _ => none where
  pos := by simpa using hn
  placed := placed_replicate hash n
  nodup := by simp [entries]
  size := by simp [entries]
  graph := by simp [entries]

section
variable [DecidableEq K] [Inhabited V] (hash : K → Nat)

theorem hashMap_simulates {n : Nat} (hn : 0 < n) :
    (hashMap hash n).Simulates (partialFunction K V) fun m f => Table hash m f where
  init := table_init hash hn
  step := by
    intro m f c h
    cases c with
    | insert k v =>
      obtain ⟨m', hm, h'⟩ := h.insert k v
      exact ⟨m', by simp [hashMap, step, hm, partialFunction], h'⟩
    | find k => exact ⟨m, by simp [hashMap, step, h.find k, partialFunction], h⟩
    | erase k =>
      obtain ⟨m', hm, h'⟩ := h.erase k
      exact ⟨m', by simp [hashMap, step, hm, partialFunction], h'⟩
    | subscript k write =>
      obtain ⟨m₁, ref, hm, he, h₁⟩ := h.subscript k
      cases write with
      | none => exact ⟨m₁, by simp [hashMap, step, hm, he, partialFunction], h₁⟩
      | some w =>
        obtain ⟨m₂, hm₂, h₂, _⟩ := h₁.store he w
        rw [Function.update_idem] at h₂
        exact ⟨m₂, by simp [hashMap, step, hm, he, hm₂, partialFunction], h₂⟩

/-- The map `m`, when the calls so far have computed `f`, and at the next call. -/
structure IsPartialFunction (m : HashMap K V) (f : K → Option V) : Prop where
  find : ∀ k, find hash m k = some (f k)
  erase : ∀ k, ∃ m', erase hash m k = some (m', (f k).isSome) ∧ Table hash m' (Function.update f k none)
  insert : ∀ k v, ∃ m', insert hash m k v = some m' ∧ Table hash m' (Function.update f k (some v))
  subscript : ∀ k, ∃ m' ref, subscript hash m (.outside k) = some (m', ref) ∧
    entryAt m' ref = some (k, (f k).getD default) ∧
    Table hash m' (Function.update f k (some ((f k).getD default))) ∧
    ∀ w, ∃ m'', store m' ref w = some m'' ∧ Table hash m'' (Function.update f k (some w))
  size : ∃ keys : Finset K, (∀ k, k ∈ keys ↔ f k ≠ none) ∧ m.size = keys.card
  placed : ∀ i bucket, m.buckets[i]? = some bucket → ∀ e ∈ bucket, i = hash e.1 % m.buckets.length
  unique : (m.buckets.flatten.map Prod.fst).Nodup

variable {hash}

theorem Table.isPartialFunction {m : HashMap K V} {f : K → Option V} (h : Table hash m f) :
    IsPartialFunction hash m f where
  find := h.find
  erase := h.erase
  insert := h.insert
  subscript := by
    intro k
    obtain ⟨m', ref, hm, he, h'⟩ := h.subscript k
    refine ⟨m', ref, hm, he, h', fun w => ?_⟩
    obtain ⟨m'', hm'', h'', _⟩ := h'.store he w
    rw [Function.update_idem] at h''
    exact ⟨m'', hm'', h''⟩
  size := h.size_eq
  placed := fun i b hb e he => (h.placed i b hb e he).symm
  unique := h.nodup

end

/-- **The map is a finite partial function**, for any hash function. -/
theorem hashMap_refines [DecidableEq K] [Inhabited V] (hash : K → Nat) (initialBuckets : Nat)
    (hn : 0 < initialBuckets) (cs : List (Call K V)) : ∃ m, (hashMap hash initialBuckets).exec cs = some m ∧
      IsPartialFunction hash m ((partialFunction K V).exec cs) := by
  obtain ⟨m, he, h⟩ := (hashMap_simulates hash hn).exec cs
  exact ⟨m, he, h.isPartialFunction⟩

end

/-- Keys that all collide, a write through a reference, and an erase. -/
def collisions : List (Call Nat Nat) :=
  [.insert 1 10, .insert 2 20, .subscript 3 none, .subscript 1 (some 11), .erase 2]

theorem hashMap_refines_collisions : ∃ m, (hashMap (fun _ => 0) 1).exec collisions = some m ∧
    find (fun _ => 0) m 1 = some (some 11) ∧ find (fun _ => 0) m 2 = some none ∧
    IsPartialFunction (fun _ => 0) m ((partialFunction Nat Nat).exec collisions) := by
  obtain ⟨m, he, h⟩ := hashMap_refines (fun _ => 0) 1 (by decide) collisions
  exact ⟨m, he, h.find 1, h.find 2, h⟩

/-- `map[map[1]]`: the reference is to 10, and 10 has no entry. Adding one rehashes. -/
theorem subscript_dangling : ∃ m ref, (hashMap (fun key => key) 1).exec [.insert 1 10] = some m ∧
    locate (fun key => key) m 1 = some (some ref) ∧ (Arg.inside ref id).read (valueAt m) = some 10 ∧
    subscript (fun key => key) m (.inside ref id) = none := by
  refine ⟨⟨[[], [(1, 10)]], 1⟩, ⟨1, 0⟩, ?_, rfl, rfl, ?_⟩
  · decide +kernel
  · decide +kernel

end Playground.HashMap
