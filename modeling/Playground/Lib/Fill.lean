import Mathlib.Data.List.Induction
import Mathlib.Data.List.ProdSigma
import Mathlib.Logic.Function.Basic
import Playground.Lib.Vec

/-!
# Tables filled cell by cell

A loop computes each cell of a table from the cells that came before it, in
some order. When it computes them right, provided that those before are right
and those after are as they were, then all of them are right at its end.
-/

namespace Fill

section
variable {ι : Type*} {α σ : Type} {table : (ι → α) → σ} {write : σ → ι → α → Option σ} {cell : σ → ι → Option α}
  {r : ι → ι → Prop} {l : List ι} {f g : ι → α}

/-- A cell is written with what is computed from the table. -/
def step (write : σ → ι → α → Option σ) (cell : σ → ι → Option α) (s : σ) (i : ι) : Option σ := do
  write s i (← cell s i)

/-- **Cells that are filled in the order `r`**: `f` is what they come to, `g` what they were. -/
theorem run [DecidableEq ι] (hr : ∀ i j, r i j → ¬ r j i) (hl : l.Pairwise r)
    (hwrite : ∀ h, ∀ i ∈ l, ∀ x, write (table h) i x = some (table (Function.update h i x)))
    (hcell : ∀ i ∈ l, ∀ h, (∀ k ∈ l, r k i → h k = f k) → (∀ k, (k ∈ l → ¬ r k i) → h k = g k) →
      cell (table h) i = some (f i)) :
    l.foldlM (step write cell) (table g) = some (table fun k => if k ∈ l then f k else g k) := by
  have hpart : ∀ l₁ l₂, l = l₁ ++ l₂ →
      l₁.foldlM (step write cell) (table g) = some (table fun k => if k ∈ l₁ then f k else g k) := by
    intro l₁
    induction l₁ using List.reverseRecOn with
    | nil => intro l₂ _; simp
    | append_singleton l₁ i ih =>
      intro l₂ hsplit
      have hsplit' : l = l₁ ++ i :: l₂ := by rw [hsplit, List.append_assoc, List.singleton_append]
      rw [hsplit', List.pairwise_append, List.pairwise_cons] at hl
      obtain ⟨-, ⟨hafter, -⟩, hbefore⟩ := hl
      have hi : i ∈ l := by simp [hsplit']
      have hdone : ∀ k ∈ l, r k i ↔ k ∈ l₁ := by
        intro k hk
        constructor
        · intro hki
          rw [hsplit', List.mem_append, List.mem_cons] at hk
          rcases hk with hk | rfl | hk
          · exact hk
          · exact absurd hki (hr k k hki)
          · exact absurd hki (hr i k (hafter k hk))
        · exact fun hk => hbefore k hk i List.mem_cons_self
      have hvalue : cell (table fun k => if k ∈ l₁ then f k else g k) i = some (f i) := by
        apply hcell i hi
        · intro k hk hki
          rw [if_pos ((hdone k hk).mp hki)]
        · intro k hk
          apply if_neg
          intro hmem
          have hkl : k ∈ l := by simp [hsplit', hmem]
          exact hk hkl ((hdone k hkl).mpr hmem)
      rw [List.foldlM_append, ih (i :: l₂) hsplit']
      simp only [Option.bind_eq_bind, Option.bind_some, List.foldlM_cons, List.foldlM_nil, step, hvalue,
        hwrite _ i hi]
      refine congrArg _ (congrArg table (funext fun k => ?_))
      by_cases hk : k = i
      · subst hk
        simp
      · simp [hk]
  exact hpart l [] (List.append_nil l).symm

end

/-! ## One index -/

variable {α : Type*} {m n : Nat}

/-- The vector of the values at the indices below `n`. -/
def vec (n : Nat) (f : Nat → α) : List α := (List.range n).map f

@[simp] theorem length_vec (f : Nat → α) : (vec n f).length = n := by simp [vec]

theorem vec_get {i : Nat} (f : Nat → α) (h : i < n) : (vec n f)[i]? = some (f i) := Vec.getElem?_table f h

theorem vec_congr {f g : Nat → α} (h : ∀ i < n, f i = g i) : vec n f = vec n g :=
  List.map_congr_left fun i hi => h i (List.mem_range.mp hi)

theorem vec_const (x : α) : vec n (fun _ => x) = List.replicate n x := by
  rw [vec, List.map_const', List.length_range]

theorem write_vec {i : Nat} (f : Nat → α) (h : i < n) (x : α) :
    Vec.write (vec n f) i x = some (vec n (Function.update f i x)) := by
  rw [vec, Vec.write_table f h]
  exact congrArg some (vec_congr fun j _ => (Function.update_apply f i x j).symm)

/-- A vector that is filled from the left, where the cells left out are right already. -/
theorem run_vec {α : Type} {cell : List α → Nat → Option α} {f g : Nat → α} {l : List Nat} {n : Nat}
    (hl : l.Pairwise (· < ·)) (hn : ∀ i ∈ l, i < n) (hout : ∀ i < n, i ∉ l → g i = f i)
    (hcell : ∀ i ∈ l, ∀ v, (∀ k < i, v[k]? = some (f k)) → cell v i = some (f i)) :
    l.foldlM (step Vec.write cell) (vec n g) = some (vec n f) := by
  rw [run (r := (· < ·)) (f := f) (fun i j => Nat.lt_asymm) hl]
  · refine congrArg some (vec_congr fun i hi => ?_)
    by_cases hmem : i ∈ l
    · rw [if_pos hmem]
    · rw [if_neg hmem, hout i hi hmem]
  · exact fun h i hi x => write_vec h (hn i hi) x
  · intro i hi h hbefore hrest
    refine hcell i hi _ fun k hk => ?_
    have hkn := Nat.lt_trans hk (hn i hi)
    rw [vec_get h hkn, Option.some_inj]
    by_cases hmem : k ∈ l
    · exact hbefore k hmem hk
    · rw [hrest k fun hk => absurd hk hmem, hout k hkn hmem]

/-! ## Two indices -/

def read (dp : List (List α)) (c : Nat × Nat) : Option α := do (← dp[c.1]?)[c.2]?

def write (dp : List (List α)) (c : Nat × Nat) (x : α) : Option (List (List α)) := do
  Vec.write dp c.1 (← Vec.write (← dp[c.1]?) c.2 x)

def grid (m n : Nat) (f : Nat × Nat → α) : List (List α) := vec m fun i => vec n fun j => f (i, j)

theorem read_grid {c : Nat × Nat} (f : Nat × Nat → α) (h₁ : c.1 < m) (h₂ : c.2 < n) :
    read (grid m n f) c = some (f c) := by
  simp only [read, grid, vec_get _ h₁, vec_get _ h₂, Option.bind_eq_bind, Option.bind_some]

theorem grid_congr {f g : Nat × Nat → α} (h : ∀ i < m, ∀ j < n, f (i, j) = g (i, j)) : grid m n f = grid m n g :=
  vec_congr fun i hi => vec_congr (h i hi)

theorem grid_const (x : α) : grid m n (fun _ => x) = List.replicate m (List.replicate n x) := by
  simp [grid, vec_const]

theorem write_grid {c : Nat × Nat} (f : Nat × Nat → α) (h₁ : c.1 < m) (h₂ : c.2 < n) (x : α) :
    write (grid m n f) c x = some (grid m n (Function.update f c x)) := by
  have hrow : (grid m n f)[c.1]? = some (vec n fun j => f (c.1, j)) := vec_get _ h₁
  simp only [write, hrow, Option.bind_eq_bind, Option.bind_some, write_vec _ h₂]
  rw [grid, write_vec _ h₁]
  refine congrArg some (vec_congr fun i _ => ?_)
  by_cases hi : i = c.1
  · subst hi
    rw [Function.update_self]
    refine vec_congr fun j _ => ?_
    simp [Function.update_apply, Prod.ext_iff]
  · rw [Function.update_of_ne hi]
    refine vec_congr fun j _ => ?_
    rw [Function.update_of_ne]
    exact fun heq => hi (congrArg Prod.fst heq)

def Before (c d : Nat × Nat) : Prop := c.1 < d.1 ∨ c.1 = d.1 ∧ c.2 < d.2

theorem before_asymm (c d : Nat × Nat) (h : Before c d) : ¬ Before d c := by
  unfold Before at *
  omega

theorem pairwise_before {rows cols : List Nat} (hrows : rows.Pairwise (· < ·)) (hcols : cols.Pairwise (· < ·)) :
    (rows ×ˢ cols).Pairwise Before := by
  apply List.pairwise_flatMap.mpr
  refine ⟨fun i _ => List.pairwise_map.mpr (hcols.imp fun h => .inr ⟨rfl, h⟩), hrows.imp ?_⟩
  intro i i' hlt c hc d hd
  obtain ⟨j, -, rfl⟩ := List.mem_map.mp hc
  obtain ⟨j', -, rfl⟩ := List.mem_map.mp hd
  exact .inl hlt

theorem foldlM_product {σ : Type*} (step : σ → Nat × Nat → Option σ) (rows cols : List Nat) (s : σ) :
    rows.foldlM (fun s i => cols.foldlM (fun s j => step s (i, j)) s) s = (rows ×ˢ cols).foldlM step s := by
  induction rows generalizing s with
  | nil => rfl
  | cons i rows ih =>
    rw [List.product_cons, List.foldlM_append, List.foldlM_cons, List.foldlM_map]
    exact congrArg _ (funext ih)

/-- A table that is filled row by row, where the cells left out are right already. -/
theorem run_grid {α : Type} {cell : List (List α) → Nat × Nat → Option α} {f g : Nat × Nat → α}
    {rows cols : List Nat} {m n : Nat} (hrows : rows.Pairwise (· < ·)) (hcols : cols.Pairwise (· < ·))
    (hm : ∀ i ∈ rows, i < m)
    (hn : ∀ j ∈ cols, j < n) (hout : ∀ i < m, ∀ j < n, ¬ (i ∈ rows ∧ j ∈ cols) → g (i, j) = f (i, j))
    (hcell : ∀ i ∈ rows, ∀ j ∈ cols, ∀ dp, (∀ k, Before k (i, j) → k.2 < n → read dp k = some (f k)) →
      cell dp (i, j) = some (f (i, j))) :
    rows.foldlM (fun dp i => cols.foldlM (fun dp j => step write cell dp (i, j)) dp) (grid m n g) =
      some (grid m n f) := by
  rw [foldlM_product (step write cell), run (r := Before) (f := f) before_asymm (pairwise_before hrows hcols)]
  · refine congrArg some (grid_congr fun i hi j hj => ?_)
    by_cases hmem : i ∈ rows ∧ j ∈ cols
    · rw [if_pos (List.mem_product.mpr hmem)]
    · rw [if_neg (mt List.mem_product.mp hmem), hout i hi j hj hmem]
  · rintro h ⟨i, j⟩ hc x
    obtain ⟨hi, hj⟩ := List.mem_product.mp hc
    exact write_grid h (hm i hi) (hn j hj) x
  · rintro ⟨i, j⟩ hc h hbefore hrest
    obtain ⟨hi, hj⟩ := List.mem_product.mp hc
    refine hcell i hi j hj _ fun k hk hk₂ => ?_
    have hk₁ : k.1 < m := by
      have := hm i hi
      unfold Before at hk
      omega
    rw [read_grid h hk₁ hk₂, Option.some_inj]
    by_cases hmem : k ∈ rows ×ˢ cols
    · exact hbefore k hmem hk
    · rw [hrest k fun hk => absurd hk hmem, hout k.1 hk₁ k.2 hk₂ (mt List.mem_product.mpr hmem)]

end Fill
