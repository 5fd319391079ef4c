import Playground.Lib.Backtrack
import Playground.Lib.Bits
import Playground.Lib.Fallible
import Playground.NQueens

/-!
# What the N-queens solver finds

On the way down the masks have the bits of the columns and diagonals of the
queens that are placed, so that `is_safe` says which columns are free; on the
way up they are what they were.
-/

namespace Playground.NQueens

open Backtrack Bits Fallible

/-! ## Placements -/

/-- The queens at row `i`, column `c`, and row `j`, column `d` share neither a column nor a diagonal. -/
abbrev Apart (i c j d : Nat) : Prop := c ≠ d ∧ i + c ≠ j + d ∧ i + d ≠ j + c

/-- One queen per row, in rows from 0 on. -/
structure Placement (n : Nat) (q : List Nat) : Prop where
  length : q.length = n
  lt : ∀ c ∈ q, c < n
  apart : ∀ i j c d, i < j → q[i]? = some c → q[j]? = some d → Apart i c j d

/-- The next row has room in column `d`. -/
def Free (p : List Nat) (d : Nat) : Prop := ∀ i c, p[i]? = some c → Apart i c p.length d

instance (p : List Nat) (d : Nat) : Decidable (Free p d) :=
  decidable_of_iff (∀ i, ∀ h : i < p.length, Apart i p[i] p.length d) <| by
    constructor
    · intro h i c hc
      obtain ⟨hi, rfl⟩ := List.getElem?_eq_some_iff.mp hc
      exact h i hi
    · exact fun h i hi => h i p[i] (List.getElem?_eq_getElem hi)

abbrev boards (n left : Nat) (p : List Nat) : List (List Nat) := extensions (List.range n) Free left p

theorem getElem?_snoc {α : Type*} {p : List α} {a b : α} {i : Nat} :
    (p ++ [a])[i]? = some b ↔ p[i]? = some b ∨ i = p.length ∧ b = a := by
  rw [List.getElem?_append]
  split
  · rename_i h
    simp [Nat.ne_of_lt h]
  · rename_i h
    rw [List.getElem?_eq_none (Nat.le_of_not_lt h), List.getElem?_singleton]
    simp only [reduceCtorEq, false_or, Option.ite_none_right_eq_some, Option.some.injEq]
    constructor
    · rintro ⟨h0, rfl⟩
      exact ⟨by omega, rfl⟩
    · rintro ⟨rfl, rfl⟩
      exact ⟨by omega, rfl⟩

theorem exists_snoc {α : Type*} {p : List α} {a : α} {P : Nat → α → Prop} :
    (∃ i b, (p ++ [a])[i]? = some b ∧ P i b) ↔ (∃ i b, p[i]? = some b ∧ P i b) ∨ P p.length a := by
  constructor
  · rintro ⟨i, b, hi, hP⟩
    rcases getElem?_snoc.mp hi with hi | ⟨rfl, rfl⟩
    · exact .inl ⟨i, b, hi, hP⟩
    · exact .inr hP
  · rintro (⟨i, b, hi, hP⟩ | hP)
    · exact ⟨i, b, getElem?_snoc.mpr (.inl hi), hP⟩
    · exact ⟨p.length, a, getElem?_snoc.mpr (.inr ⟨rfl, rfl⟩), hP⟩

theorem admissible_iff {n : Nat} {q : List Nat} : Admissible (List.range n) Free q ↔
    (∀ c ∈ q, c < n) ∧ ∀ i j c d, i < j → q[i]? = some c → q[j]? = some d → Apart i c j d := by
  induction q using List.reverseRecOn with
  | nil => simp [admissible_nil]
  | append_singleton q a ih =>
    rw [admissible_snoc, ih, List.mem_range]
    constructor
    · rintro ⟨⟨hlt, hapart⟩, ha, hfree⟩
      refine ⟨fun c hc => ?_, fun i j c d hij hc hd => ?_⟩
      · rcases List.mem_append.mp hc with hc | hc
        · exact hlt c hc
        · rw [List.mem_singleton.mp hc]
          exact ha
      · rcases getElem?_snoc.mp hd with hd | ⟨rfl, rfl⟩
        · rcases getElem?_snoc.mp hc with hc | ⟨rfl, -⟩
          · exact hapart i j c d hij hc hd
          · have := (List.getElem?_eq_some_iff.mp hd).1
            omega
        · rcases getElem?_snoc.mp hc with hc | ⟨rfl, -⟩
          · exact hfree i c hc
          · omega
    · rintro ⟨hlt, hapart⟩
      refine ⟨⟨fun c hc => hlt c (List.mem_append_left _ hc), fun i j c d hij hc hd => ?_⟩, hlt a (by simp),
        fun i c hc => ?_⟩
      · exact hapart i j c d hij (getElem?_snoc.mpr (.inl hc)) (getElem?_snoc.mpr (.inl hd))
      · exact hapart i q.length c a (List.getElem?_eq_some_iff.mp hc).1 (getElem?_snoc.mpr (.inl hc))
          (getElem?_snoc.mpr (.inr ⟨rfl, rfl⟩))

theorem mem_boards {n : Nat} {q : List Nat} : q ∈ boards n n [] ↔ Placement n q := by
  rw [boards, mem_extensions admissible_nil, admissible_iff, List.length_nil, Nat.zero_add]
  constructor
  · rintro ⟨-, hlen, hlt, hapart⟩
    exact ⟨hlen, hlt, hapart⟩
  · rintro ⟨hlen, hlt, hapart⟩
    exact ⟨List.nil_prefix, hlen, hlt, hapart⟩

/-! ## Shifts -/

section
variable {W n row col : Nat}

theorem int_eq_ok {x y : Int} : int x = .ok y ↔ CInt.fit x = some y := by
  unfold int
  cases CInt.fit x <;> simp

theorem bit_eq_ok {s : Int} {b : BitVec W} : bit W s = .ok b ↔ (0 ≤ s ∧ s < W) ∧ BitVec.twoPow W s.toNat = b := by
  unfold bit
  split
  · rename_i h
    simp [h]
  · rename_i h
    exact iff_of_false nofun fun hs => h hs.1

theorem bits_eq_ok {b : BitVec W × BitVec W × BitVec W} (hcol : col < n) (h : bits W n row col = .ok b) :
    (row + (n - 1 - col) < W ∧ row + col < W) ∧
      b = (BitVec.twoPow W col, BitVec.twoPow W (row + (n - 1 - col)), BitVec.twoPow W (row + col)) := by
  simp only [bits, bind_eq_ok] at h
  obtain ⟨c, hc, x, hx, y, hy, z, hz, d₁, hd₁, w, hw, d₂, hd₂, h⟩ := h
  obtain rfl := (CInt.fit_eq_some (int_eq_ok.mp hx)).1
  obtain rfl := (CInt.fit_eq_some (int_eq_ok.mp hy)).1
  obtain rfl := (CInt.fit_eq_some (int_eq_ok.mp hz)).1
  obtain rfl := (CInt.fit_eq_some (int_eq_ok.mp hw)).1
  obtain ⟨hc, rfl⟩ := bit_eq_ok.mp hc
  obtain ⟨hd₁, rfl⟩ := bit_eq_ok.mp hd₁
  obtain ⟨hd₂, rfl⟩ := bit_eq_ok.mp hd₂
  cases h
  have h₁ : ((row : Int) - col + n - 1).toNat = row + (n - 1 - col) := by omega
  have h₂ : ((row : Int) + col).toNat = row + col := by omega
  exact ⟨⟨by omega, by omega⟩, by rw [h₁, h₂, Int.toNat_natCast]⟩

theorem bits_fit {b : BitVec W × BitVec W × BitVec W} (h : bits W n row col = .ok b) :
    (row : Int) - col + n < 2 ^ 31 := by
  simp only [bits, bind_eq_ok] at h
  obtain ⟨c, hc, x, hx, y, hy, -⟩ := h
  obtain rfl := (CInt.fit_eq_some (int_eq_ok.mp hx)).1
  exact (CInt.fit_eq_some (int_eq_ok.mp hy)).2.2

theorem bits_ok (hn : n ≤ 2 ^ 30) (hW : 2 * n ≤ W + 1) (hrow : row < n) (hcol : col < n) :
    ∃ b, bits W n row col = .ok b := by
  have hbit : ∀ s : Int, 0 ≤ s → s < W → bit W s = .ok (BitVec.twoPow W s.toNat) :=
    fun s h0 hs => bit_eq_ok.mpr ⟨⟨h0, hs⟩, rfl⟩
  have hint : ∀ x : Int, -n ≤ x → x < 2 * n → int x = .ok x :=
    fun x h0 hx => int_eq_ok.mpr (CInt.fit_of (by omega) (by omega))
  clear hn
  simp only [bits, bind_eq_ok]
  exact ⟨_, _, hbit col (by omega) (by omega), _, hint (row - col) (by omega) (by omega), _,
    hint (row - col + n) (by omega) (by omega), _, hint (row - col + n - 1) (by omega) (by omega), _,
    hbit _ (by omega) (by omega), _, hint (row + col) (by omega) (by omega), _, hbit _ (by omega) (by omega), rfl⟩

/-! ## One node of the search -/

/-- The state in which the queens `p` are placed. -/
structure At (s : NQueensSolver W n) (p : List Nat) : Prop where
  length : s.queens.length = n
  take : s.queens.take p.length = p
  cols : ∀ j, s.cols.getLsbD j = true ↔ j ∈ p
  diag1 : ∀ j, s.diag1.getLsbD j = true ↔ ∃ i d, p[i]? = some d ∧ j + d + 1 = i + n
  diag2 : ∀ j, s.diag2.getLsbD j = true ↔ ∃ i d, p[i]? = some d ∧ j = i + d

/-- What a search from `row` on leaves as it was. -/
structure Kept (row : Nat) (s s' : NQueensSolver W n) : Prop where
  queens : s'.queens.length = s.queens.length
  take : s'.queens.take row = s.queens.take row
  cols : s'.cols = s.cols
  diag1 : s'.diag1 = s.diag1
  diag2 : s'.diag2 = s.diag2

theorem Kept.refl (s : NQueensSolver W n) : Kept row s s := ⟨rfl, rfl, rfl, rfl, rfl⟩

theorem Kept.trans {s t u : NQueensSolver W n} (h : Kept row s t) (h' : Kept row t u) : Kept row s u where
  queens := h'.queens.trans h.queens
  take := h'.take.trans h.take
  cols := h'.cols.trans h.cols
  diag1 := h'.diag1.trans h.diag1
  diag2 := h'.diag2.trans h.diag2

theorem At.of_kept {s s' : NQueensSolver W n} {p : List Nat} (h : At s p) (hk : Kept p.length s s') : At s' p where
  length := hk.queens.trans h.length
  take := hk.take.trans h.take
  cols := by
    rw [hk.cols]
    exact h.cols
  diag1 := by
    rw [hk.diag1]
    exact h.diag1
  diag2 := by
    rw [hk.diag2]
    exact h.diag2

def safe (s : NQueensSolver W n) (b : BitVec W × BitVec W × BitVec W) : Bool :=
  s.cols &&& b.1 == 0 && s.diag1 &&& b.2.1 == 0 && s.diag2 &&& b.2.2 == 0

def placed (s : NQueensSolver W n) (row col : Nat) (b : BitVec W × BitVec W × BitVec W) : NQueensSolver W n :=
  { s with
    queens := s.queens.set row col
    cols := s.cols ||| b.1
    diag1 := s.diag1 ||| b.2.1
    diag2 := s.diag2 ||| b.2.2 }

def removed (s : NQueensSolver W n) (b : BitVec W × BitVec W × BitVec W) : NQueensSolver W n :=
  { s with cols := s.cols ^^^ b.1, diag1 := s.diag1 ^^^ b.2.1, diag2 := s.diag2 ^^^ b.2.2 }

theorem tryColumn_eq {next : NQueensSolver W n → Except Fault (NQueensSolver W n)} {s : NQueensSolver W n}
    {b : BitVec W × BitVec W × BitVec W} (hb : bits W n row col = .ok b) : tryColumn next row s col =
      if safe s b then next (placed s row col b) >>= fun t => .ok (removed t b) else .ok s := by
  simp only [tryColumn, isSafe, place, remove, hb, Except.bind, bind]
  rfl

theorem At.safe_iff {s : NQueensSolver W n} {p : List Nat} {b : BitVec W × BitVec W × BitVec W} (h : At s p)
    (hcol : col < n) (hb : bits W n p.length col = .ok b) : safe s b = true ↔ Free p col := by
  obtain ⟨⟨hd₁, hd₂⟩, rfl⟩ := bits_eq_ok hcol hb
  rw [safe, Bool.and_eq_true, Bool.and_eq_true, and_twoPow_beq (by omega), and_twoPow_beq hd₁, and_twoPow_beq hd₂,
    h.cols, h.diag1, h.diag2]
  constructor
  · rintro ⟨⟨hc, h₁⟩, h₂⟩ i c hi
    refine ⟨?_, fun hx => h₂ ⟨i, c, hi, hx.symm⟩, fun hx => h₁ ⟨i, c, hi, by omega⟩⟩
    rintro rfl
    exact hc (List.mem_of_getElem? hi)
  · intro hfree
    refine ⟨⟨fun hc => ?_, ?_⟩, ?_⟩
    · obtain ⟨i, hi⟩ := List.mem_iff_getElem?.mp hc
      exact (hfree i col hi).1 rfl
    · rintro ⟨i, d, hi, hx⟩
      exact (hfree i d hi).2.2 (by omega)
    · rintro ⟨i, d, hi, hx⟩
      exact (hfree i d hi).2.1 hx.symm

theorem At.placed {s : NQueensSolver W n} {p : List Nat} {b : BitVec W × BitVec W × BitVec W} (h : At s p)
    (hrow : p.length < n) (hcol : col < n) (hb : bits W n p.length col = .ok b) :
    At (placed s p.length col b) (p ++ [col]) := by
  obtain ⟨⟨hd₁, hd₂⟩, rfl⟩ := bits_eq_ok hcol hb
  have hlen := h.length
  constructor
  · simpa only [NQueens.placed, List.length_set] using hlen
  · simp only [NQueens.placed, List.length_append, List.length_singleton]
    rw [List.take_succ_eq_append_getElem (by rwa [List.length_set, hlen]), List.getElem_set_self,
      List.take_set_of_le (Nat.le_refl _), h.take]
  · intro j
    rw [NQueens.placed, getLsbD_or_twoPow (by omega), h.cols, List.mem_append, List.mem_singleton]
  · intro j
    rw [NQueens.placed, getLsbD_or_twoPow hd₁, h.diag1, exists_snoc]
    exact or_congr_right (by omega)
  · intro j
    rw [NQueens.placed, getLsbD_or_twoPow hd₂, h.diag2, exists_snoc]

/-- The bits of a free column are not set, so that clearing them restores the masks. -/
theorem At.removed {s t : NQueensSolver W n} {p : List Nat} {b : BitVec W × BitVec W × BitVec W} (h : At s p)
    (hcol : col < n) (hb : bits W n p.length col = .ok b) (hfree : Free p col)
    (hk : Kept (p.length + 1) (NQueens.placed s p.length col b) t) : Kept p.length s (removed t b) := by
  have hsafe := (h.safe_iff hcol hb).mpr hfree
  obtain ⟨⟨hd₁, hd₂⟩, rfl⟩ := bits_eq_ok hcol hb
  rw [safe, Bool.and_eq_true, Bool.and_eq_true, and_twoPow_beq (by omega), and_twoPow_beq hd₁,
    and_twoPow_beq hd₂] at hsafe
  have htake : ∀ l : List Nat, l.take p.length = (l.take (p.length + 1)).take p.length := by
    intro l
    rw [List.take_take, Nat.min_eq_left (Nat.le_succ _)]
  constructor
  · rw [NQueens.removed, hk.queens, NQueens.placed, List.length_set]
  · rw [NQueens.removed, htake, hk.take, ← htake, NQueens.placed, List.take_set_of_le (Nat.le_refl _)]
  · rw [NQueens.removed, hk.cols, NQueens.placed, or_xor_twoPow hsafe.1.1]
  · rw [NQueens.removed, hk.diag1, NQueens.placed, or_xor_twoPow hsafe.1.2]
  · rw [NQueens.removed, hk.diag2, NQueens.placed, or_xor_twoPow hsafe.2]

/-! ## The search -/

section
variable {β : Type} {record : NQueensSolver W n → NQueensSolver W n} {f : NQueensSolver W n → β}
    {g : β → List Nat → β}

/-- `record` folds the board into the result `f`, which nothing else changes. -/
structure Records (record : NQueensSolver W n → NQueensSolver W n) (f : NQueensSolver W n → β)
    (g : β → List Nat → β) : Prop where
  kept : ∀ s row, Kept row s (record s)
  result : ∀ s, f (record s) = g (f s) s.queens
  placed : ∀ s row col b, f (placed s row col b) = f s
  removed : ∀ s b, f (removed s b) = f s

/-- What the call for the row below `p` does when it comes to an end. -/
def Explores (f : NQueensSolver W n → β) (g : β → List Nat → β) (left : Nat) (p : List Nat)
    (next : NQueensSolver W n → Except Fault (NQueensSolver W n)) : Prop :=
  ∀ s s', At s p → next s = .ok s' → Kept p.length s s' ∧ f s' = (boards n left p).foldl g (f s)

theorem tryColumn_ok (hr : Records record f g) {next : NQueensSolver W n → Except Fault (NQueensSolver W n)}
    {s s' : NQueensSolver W n} {p : List Nat} {left : Nat} (h : At s p) (hrow : p.length < n) (hcol : col < n)
    (hnext : Explores f g left (p ++ [col]) next) (htry : tryColumn next p.length s col = .ok s') :
    Kept p.length s s' ∧
      f s' = (if Free p col then boards n left (p ++ [col]) else []).foldl g (f s) := by
  cases hb : bits W n p.length col with
  | error e =>
    rw [tryColumn, isSafe, hb] at htry
    cases htry
  | ok b =>
    rw [tryColumn_eq hb] at htry
    by_cases hfree : Free p col
    · rw [if_pos ((h.safe_iff hcol hb).mpr hfree)] at htry
      obtain ⟨t, ht, hs'⟩ := bind_eq_ok.mp htry
      obtain rfl := Except.ok.inj hs'
      obtain ⟨hk, hf⟩ := hnext _ _ (h.placed hrow hcol hb) ht
      rw [List.length_append, List.length_singleton] at hk
      exact ⟨h.removed hcol hb hfree hk, by rw [if_pos hfree, hr.removed, hf, hr.placed]⟩
    · rw [if_neg (mt (h.safe_iff hcol hb).mp hfree)] at htry
      obtain rfl := Except.ok.inj htry
      exact ⟨.refl s, by rw [if_neg hfree, List.foldl_nil]⟩

theorem columns_ok (hr : Records record f g) {next : NQueensSolver W n → Except Fault (NQueensSolver W n)}
    {s s' : NQueensSolver W n} {p : List Nat} {left : Nat} {l : List Nat} (h : At s p) (hrow : p.length < n)
    (hl : ∀ c ∈ l, c < n) (hnext : ∀ c < n, Explores f g left (p ++ [c]) next)
    (hrun : l.foldlM (tryColumn next p.length) s = .ok s') : Kept p.length s s' ∧
      f s' = ((l.filter fun c => Free p c).flatMap fun c => boards n left (p ++ [c])).foldl g (f s) := by
  induction l generalizing s with
  | nil =>
    obtain rfl := Except.ok.inj hrun
    exact ⟨.refl s, rfl⟩
  | cons c l ih =>
    rw [List.foldlM_cons] at hrun
    obtain ⟨t, ht, hrun⟩ := bind_eq_ok.mp hrun
    have hc := hl c List.mem_cons_self
    obtain ⟨hk, hf⟩ := tryColumn_ok hr h hrow hc (hnext c hc) ht
    obtain ⟨hk', hf'⟩ := ih (h.of_kept hk) (fun c hc => hl c (List.mem_cons_of_mem _ hc)) hrun
    refine ⟨hk.trans hk', ?_⟩
    rw [hf', hf, ← List.foldl_append]
    by_cases hfree : Free p c
    · rw [if_pos hfree, List.filter_cons_of_pos (by simpa using hfree), List.flatMap_cons]
    · rw [if_neg hfree, List.filter_cons_of_neg (by simpa using hfree), List.nil_append]

theorem search_ok (hr : Records record f g) (left : Nat) {p : List Nat} (hp : p.length + left = n) :
    Explores f g left p (search record left p.length) := by
  induction left generalizing p with
  | zero =>
    intro s s' h hrun
    obtain rfl := Except.ok.inj hrun
    have hq : s.queens = p := by
      rw [← h.take, List.take_of_length_le (by rw [h.length]; omega)]
    exact ⟨hr.kept s _, by rw [hr.result, hq]; rfl⟩
  | succ left ih =>
    intro s s' h hrun
    refine columns_ok hr h (by omega) (fun c hc => List.mem_range.mp hc) (fun c _ => ?_) hrun
    have := ih (p := p ++ [c]) (by rw [List.length_append, List.length_singleton]; omega)
    rwa [List.length_append, List.length_singleton] at this

theorem search_step (hr : Records record f g) {left c : Nat} {p : List Nat} (hp : p.length + (left + 1) = n) :
    Explores f g left (p ++ [c]) (search record left (p.length + 1)) := by
  have hlen : (p ++ [c]).length = p.length + 1 := by rw [List.length_append, List.length_singleton]
  have := search_ok hr left (p := p ++ [c]) (by omega)
  rwa [hlen] at this

end

/-! ## Faults -/

theorem int_eq_error {x : Int} {e : Fault} (h : int x = .error e) : CInt.fit x = none := by
  rw [int] at h
  split at h
  · cases h
  · assumption

theorem bit_ne_overflow {i : Int} : bit W i ≠ .error .overflow := by
  unfold bit
  split <;> nofun

theorem bits_ne_overflow (hn : n ≤ 2 ^ 30) (hrow : row < n) (hcol : col < n) :
    bits W n row col ≠ .error .overflow := by
  have hint : ∀ x : Int, -n ≤ x → x < 2 * n → int x ≠ .error .overflow := by
    intro x h₀ hx h
    cases (int_eq_error h).symm.trans (CInt.fit_of (by omega) (by omega))
  have hfit : ∀ x y : Int, int x = .ok y → y = x := fun x y h => (CInt.fit_eq_some (int_eq_ok.mp h)).1
  clear hn
  intro h
  simp only [bits, bind_eq_error, bit_ne_overflow, false_or] at h
  obtain ⟨_, -, h | ⟨x, hx, h | ⟨y, hy, h | ⟨_, -, _, -, h | ⟨_, -, _, -, ⟨⟩⟩⟩⟩⟩⟩ := h
  · exact hint _ (by omega) (by omega) h
  · obtain rfl := hfit _ _ hx
    exact hint _ (by omega) (by omega) h
  · obtain rfl := hfit _ _ hx
    obtain rfl := hfit _ _ hy
    exact hint _ (by omega) (by omega) h
  · exact hint _ (by omega) (by omega) h

/-- A fault comes from the shifts of one of the nodes. -/
theorem search_eq_error {record : NQueensSolver W n → NQueensSolver W n} {e : Fault} (left : Nat)
    {s : NQueensSolver W n} (hrow : row + left = n) (h : search record left row s = .error e) :
    ∃ r < n, ∃ c < n, bits W n r c = .error e := by
  induction left generalizing row s with
  | zero => cases h
  | succ left ih =>
    obtain ⟨c, hc, t, ht⟩ := foldlM_eq_error h
    cases hb : bits W n row c with
    | error d =>
      rw [tryColumn, isSafe, hb] at ht
      cases ht
      exact ⟨row, by omega, c, List.mem_range.mp hc, hb⟩
    | ok b =>
      rw [tryColumn_eq hb] at ht
      split at ht
      · rcases bind_eq_error.mp ht with ht | ⟨t', -, ht⟩
        · exact ih (by omega) ht
        · cases ht
      · cases ht

theorem search_total (record : NQueensSolver W n → NQueensSolver W n) (left : Nat) (s : NQueensSolver W n)
    (hrow : row + left = n) (hn : n ≤ 2 ^ 30) (hW : 2 * n ≤ W + 1) : ∃ s', search record left row s = .ok s' := by
  cases h : search record left row s with
  | ok s' => exact ⟨s', rfl⟩
  | error e =>
    obtain ⟨r, hr, c, hc, he⟩ := search_eq_error left hrow h
    obtain ⟨b, hb⟩ := bits_ok hn hW hr hc
    cases hb.symm.trans he

/-! ## The nodes a search comes to -/

section
variable {β : Type} {record : NQueensSolver W n → NQueensSolver W n} {f : NQueensSolver W n → β}
    {g : β → List Nat → β}

theorem columns_reach (hr : Records record f g) {next : NQueensSolver W n → Except Fault (NQueensSolver W n)}
    {s s' : NQueensSolver W n} {p : List Nat} {left : Nat} {l : List Nat} (h : At s p) (hrow : p.length < n)
    (hl : ∀ c ∈ l, c < n) (hnext : ∀ c < n, Explores f g left (p ++ [c]) next)
    (hrun : l.foldlM (tryColumn next p.length) s = .ok s') (hcol : col ∈ l) :
    ∃ t t', At t p ∧ tryColumn next p.length t col = .ok t' := by
  induction l generalizing s with
  | nil => cases hcol
  | cons c l ih =>
    rw [List.foldlM_cons] at hrun
    obtain ⟨t, ht, hrun⟩ := bind_eq_ok.mp hrun
    rcases List.mem_cons.mp hcol with rfl | hcol
    · exact ⟨s, t, h, ht⟩
    · have hc := hl c List.mem_cons_self
      have hk := (tryColumn_ok hr h hrow hc (hnext c hc) ht).1
      exact ih (h.of_kept hk) (fun c hc => hl c (List.mem_cons_of_mem _ hc)) hrun hcol

/-- A search that comes to an end has done the shifts of every column after queens that do not attack each other. -/
theorem search_reach (hr : Records record f g) {left : Nat} {p q : List Nat} (hp : p.length + left = n)
    {s s' : NQueensSolver W n} (h : At s p) (hrun : search record left p.length s = .ok s')
    (hq : Admissible (List.range n) Free (p ++ q)) (hlt : (p ++ q).length < n) (hcol : col < n) :
    ∃ b, bits W n (p ++ q).length col = .ok b := by
  induction q generalizing p left s s' with
  | nil =>
    rw [List.append_nil] at hlt ⊢
    obtain ⟨left, rfl⟩ : ∃ k, left = k + 1 := Nat.exists_eq_succ_of_ne_zero (by omega)
    obtain ⟨t, t', -, ht⟩ := columns_reach hr h hlt (fun c hc => List.mem_range.mp hc)
      (fun c _ => search_step hr hp) hrun (List.mem_range.mpr hcol)
    cases hb : bits W n p.length col with
    | ok b => exact ⟨b, rfl⟩
    | error e =>
      rw [tryColumn, isSafe, hb] at ht
      cases ht
  | cons d q ih =>
    rw [List.append_cons] at hq hlt ⊢
    obtain ⟨-, hd, hfree⟩ := admissible_snoc.mp hq.of_append
    rw [List.mem_range] at hd
    rw [List.length_append, List.length_append, List.length_singleton] at hlt
    obtain ⟨left, rfl⟩ : ∃ k, left = k + 1 := Nat.exists_eq_succ_of_ne_zero (by omega)
    obtain ⟨t, t', ht, htry⟩ := columns_reach hr h (by omega) (fun c hc => List.mem_range.mp hc)
      (fun c _ => search_step hr hp) hrun (List.mem_range.mpr hd)
    cases hb : bits W n p.length d with
    | error e =>
      rw [tryColumn, isSafe, hb] at htry
      cases htry
    | ok b =>
      rw [tryColumn_eq hb, if_pos ((ht.safe_iff hd hb).mpr hfree)] at htry
      obtain ⟨u, hu, -⟩ := bind_eq_ok.mp htry
      have hlen : (p ++ [d]).length = p.length + 1 := by rw [List.length_append, List.length_singleton]
      rw [← hlen] at hu
      refine ih (show (p ++ [d]).length + left = n by omega) (ht.placed (by omega) hd hb) hu hq ?_
      rw [List.length_append]
      omega

end

end

end Playground.NQueens
