import Mathlib.Data.Set.Card
import Playground.NQueensSound

/-!
# The calls of the N-queens solver

With masks that are wide enough each call finds what it says, whatever was
called before. The shifts of the 32-bit masks are in range for at most sixteen
queens.
-/

namespace Playground.NQueens

open Backtrack Bits Fallible

/-- No column and no diagonal is taken. -/
structure Clear {W n : Nat} (s : NQueensSolver W n) : Prop where
  cols : s.cols = 0
  diag1 : s.diag1 = 0
  diag2 : s.diag2 = 0

def Answers (n : Nat) : Call → Answer → Prop
  | .solveAll, .boards l => (∀ q, q ∈ l ↔ Placement n q) ∧ l.Nodup ∧ l.Pairwise (List.Lex (· < ·))
  | .countSolutions, .number k => k = Set.ncard {q | Placement n q}
  | _, _ => False

section
variable {W n : Nat} {s : NQueensSolver W n}

theorem pairwise_boards : (boards n n []).Pairwise (List.Lex (· < ·)) :=
  pairwise_extensions List.pairwise_lt_range n []

theorem nodup_boards : (boards n n []).Nodup :=
  pairwise_boards.imp fun h => List.Lex.to_ne (h.imp fun _ _ hab => Nat.ne_of_lt hab)

theorem length_boards : (boards n n []).length = Set.ncard {q | Placement n q} := by
  rw [← List.toFinset_card_of_nodup nodup_boards, ← Set.ncard_coe_finset]
  congr 1
  ext q
  rw [Finset.mem_coe, List.mem_toFinset, mem_boards, Set.mem_ofPred_eq]

/-! ## One search for both calls -/

def record : Call → NQueensSolver W n → NQueensSolver W n
  | .solveAll, s => { s with solutions := s.solutions ++ [s.queens] }
  | .countSolutions, s => { s with count := s.count + 1 }

def answer (s : NQueensSolver W n) : Call → Answer
  | .solveAll => .boards s.solutions
  | .countSolutions => .number s.count

def Answer.add : Answer → List Nat → Answer
  | .boards l, q => .boards (l ++ [q])
  | .number k, _ => .number (k + 1)

/-- Where a call begins to search. -/
def start (s : NQueensSolver W n) : Call → NQueensSolver W n
  | .solveAll => { s with solutions := [], cols := 0, diag1 := 0, diag2 := 0 }
  | .countSolutions => { s with count := 0, cols := 0, diag1 := 0, diag2 := 0 }

theorem perform_eq (s : NQueensSolver W n) (c : Call) :
    perform s c = search (record c) n 0 (start s c) >>= fun s' => .ok (s', answer s' c) := by
  cases c with
  | solveAll => exact bind_assoc _ _ _
  | countSolutions => exact bind_assoc _ _ _

theorem records (c : Call) : Records (W := W) (n := n) (record c) (fun s => answer s c) Answer.add where
  kept s row := by cases c <;> exact ⟨rfl, rfl, rfl, rfl, rfl⟩
  result s := by cases c <;> rfl
  placed s row col b := by cases c <;> rfl
  removed s b := by cases c <;> rfl

theorem at_start (hq : s.queens.length = n) (c : Call) : At (start s c) [] := by
  have hcols : (start s c).cols = 0 := by cases c <;> rfl
  have hdiag1 : (start s c).diag1 = 0 := by cases c <;> rfl
  have hdiag2 : (start s c).diag2 = 0 := by cases c <;> rfl
  refine ⟨?_, rfl, fun j => by simp [hcols], fun j => by simp [hdiag1], fun j => by simp [hdiag2]⟩
  cases c <;> exact hq

theorem foldl_add_boards (l m : List (List Nat)) : l.foldl Answer.add (.boards m) = .boards (m ++ l) := by
  induction l generalizing m with
  | nil => rw [List.append_nil, List.foldl_nil]
  | cons q l ih => rw [List.foldl_cons, Answer.add, ih, List.append_assoc, List.singleton_append]

theorem foldl_add_number (l : List (List Nat)) (k : Nat) :
    l.foldl Answer.add (.number k) = .number (k + l.length) := by
  induction l generalizing k with
  | nil => rfl
  | cons q l ih => rw [List.foldl_cons, Answer.add, ih, List.length_cons, Nat.add_right_comm, Nat.add_assoc]

theorem answers_boards (s : NQueensSolver W n) (c : Call) :
    Answers n c ((boards n n []).foldl Answer.add (answer (start s c) c)) := by
  cases c with
  | solveAll =>
    rw [start, answer, foldl_add_boards, List.nil_append]
    exact ⟨fun _ => mem_boards, nodup_boards, pairwise_boards⟩
  | countSolutions =>
    rw [start, answer, foldl_add_number, Nat.zero_add]
    exact length_boards

theorem perform_ok (hn : n ≤ 2 ^ 30) (hW : 2 * n ≤ W + 1) (hq : s.queens.length = n) (c : Call) :
    ∃ s' a, perform s c = .ok (s', a) ∧ Answers n c a ∧ s'.queens.length = n ∧ Clear s' := by
  obtain ⟨s', h⟩ := search_total (record c) n (start s c) (Nat.zero_add n) hn hW
  obtain ⟨hk, hf⟩ := search_ok (records c) n (p := []) (Nat.zero_add n) _ s' (at_start hq c) h
  have hat := (at_start hq c).of_kept hk
  refine ⟨s', answer s' c, ?_, ?_, hat.length, ?_⟩
  · rw [perform_eq]
    exact bind_eq_ok.mpr ⟨s', h, rfl⟩
  · rw [show answer s' c = _ from hf]
    exact answers_boards s c
  · cases c <;> exact ⟨hk.cols, hk.diag1, hk.diag2⟩

theorem exec_ok (hn : n ≤ 2 ^ 30) (hW : 2 * n ≤ W + 1) (calls : List Call) :
    ∃ s, (solver W n).exec calls = some s ∧ s.queens.length = n := by
  induction calls using List.reverseRecOn with
  | nil => exact ⟨construct W n, rfl, List.length_replicate⟩
  | append_singleton calls c ih =>
    obtain ⟨s, hs, hq⟩ := ih
    obtain ⟨s', a, h, -, hq', -⟩ := perform_ok hn hW hq c
    exact ⟨s', (solver W n).exec_snoc_of (o := a) hs (congrArg Except.toOption h), hq'⟩

end

/-! ## Queens a knight's move apart -/

section
variable {W n h : Nat}

/-- Half of the rows have the odd columns, the other half the even ones. -/
def knights (h : Nat) : List Nat := (List.range h).map (fun i => 2 * i + 1) ++ (List.range h).map (fun i => 2 * i)

theorem length_knights : (knights h).length = 2 * h := by
  simp [knights]
  omega

theorem getElem?_knights {i c : Nat} (hc : (knights h)[i]? = some c) :
    i < h ∧ c = 2 * i + 1 ∨ h ≤ i ∧ i < 2 * h ∧ c + 2 * h = 2 * i := by
  rw [knights, List.getElem?_append, List.length_map, List.length_range] at hc
  split at hc
  · rename_i hi
    rw [List.getElem?_map, List.getElem?_range hi] at hc
    exact .inl ⟨hi, (Option.some.inj hc).symm⟩
  · rename_i hi
    obtain ⟨j, hj, rfl⟩ := List.getElem?_eq_some_iff.mp hc
    simp only [List.length_map, List.length_range] at j
    simp only [List.getElem_map, List.getElem_range]
    omega

theorem admissible_knights (hn : 2 * h ≤ n) (h3 : (2 * h + 1) % 3 ≠ 0) :
    Admissible (List.range n) Free (knights h) := by
  refine admissible_iff.mpr ⟨fun c hc => ?_, fun i j c d hij hc hd => ?_⟩
  · obtain ⟨i, hi⟩ := List.mem_iff_getElem?.mp hc
    have := getElem?_knights hi
    omega
  · have hc := getElem?_knights hc
    have hd := getElem?_knights hd
    omega

theorem perform_reach {s s' : NQueensSolver W n} {c : Call} {a : Answer} {q : List Nat} {col : Nat}
    (hs : s.queens.length = n) (hrun : perform s c = .ok (s', a)) (hq : Admissible (List.range n) Free q)
    (hlt : q.length < n) (hcol : col < n) : ∃ b, bits W n q.length col = .ok b := by
  rw [perform_eq] at hrun
  obtain ⟨t, ht, -⟩ := bind_eq_ok.mp hrun
  exact search_reach (records c) (p := []) (Nat.zero_add n) (at_start hs c) ht hq hlt hcol

theorem perform_long (hn : n = 2 * h + 1) (h3 : (2 * h + 1) % 3 ≠ 0) (hbig : 2 ^ 31 ≤ 4 * h + 1)
    (c : Call) (s' : NQueensSolver W n) (a : Answer) : perform (construct W n) c ≠ .ok (s', a) := by
  intro hrun
  obtain ⟨b, hb⟩ := perform_reach (List.length_replicate ..) hrun (admissible_knights (by omega) h3)
    (by rw [length_knights]; omega) (show 0 < n by omega)
  rw [length_knights] at hb
  have := bits_fit hb
  omega

end

/-! ## Answers -/

/-- After any calls, the next one is answered with the placements, or their number, and leaves the masks clear. -/
theorem solver_exec_spec {W n : Nat} (hn : n ≤ 2 ^ 30) (hW : 2 * n ≤ W + 1) (calls : List Call) (c : Call) :
    ∃ s s' a, (solver W n).exec calls = some s ∧ perform s c = .ok (s', a) ∧ Answers n c a ∧ Clear s' := by
  obtain ⟨s, hs, hq⟩ := exec_ok hn hW calls
  obtain ⟨s', a, h, ha, -, hc⟩ := perform_ok hn hW hq c
  exact ⟨s, s', a, hs, h, ha, hc⟩

theorem solver_exec_spec_four : ∃ s s' a, (solver 32 4).exec [.countSolutions] = some s ∧
    perform s .solveAll = .ok (s', a) ∧ Answers 4 .solveAll a ∧ Clear s' :=
  solver_exec_spec (by decide) (by decide) [.countSolutions] .solveAll

/-- The index of a diagonal overflows. -/
theorem solver_exec_spec_long :
    ¬ ∃ s s' a, (solver (2 ^ 31 + 1) (2 ^ 30 + 1)).exec [] = some s ∧ perform s .solveAll = .ok (s', a) := by
  rintro ⟨s, s', a, hs, h⟩
  obtain rfl := Option.some.inj hs
  exact perform_long (h := 2 ^ 29) (by decide) (by decide) (by decide) .solveAll s' a h

/-! ## Shifts -/

section
variable {W n : Nat}

/-- Columns and diagonals are told apart by their bits. -/
def Distinct (W n : Nat) : Prop :=
  ∀ i c j d b b', c < n → d < n → bits W n i c = .ok b → bits W n j d = .ok b' →
    (b.1 = b'.1 → c = d) ∧ (b.2.1 = b'.2.1 → i + d = j + c) ∧ (b.2.2 = b'.2.2 → i + c = j + d)

theorem distinct : Distinct W n := by
  intro i c j d b b' hc hd hb hb'
  obtain ⟨⟨h₁, h₂⟩, rfl⟩ := bits_eq_ok hc hb
  obtain ⟨-, rfl⟩ := bits_eq_ok hd hb'
  refine ⟨fun h => twoPow_inj (by omega) h, fun h => ?_, fun h => twoPow_inj h₂ h⟩
  have := twoPow_inj h₁ h
  omega

theorem perform_eq_error {s : NQueensSolver W n} {c : Call} {e : Fault} (h : perform s c = .error e) :
    ∃ i < n, ∃ d < n, bits W n i d = .error e := by
  rw [perform_eq] at h
  rcases bind_eq_error.mp h with h | ⟨t, -, h⟩
  · exact search_eq_error n (Nat.zero_add n) h
  · cases h

theorem range_eq_cons (hn : 0 < n) : ∃ l, List.range n = 0 :: l := by
  obtain ⟨m, rfl⟩ := Nat.exists_eq_succ_of_ne_zero (Nat.ne_of_gt hn)
  exact ⟨_, List.range_succ_eq_map⟩

theorem search_first {record : NQueensSolver W n → NQueensSolver W n} {e : Fault} {left : Nat} (hn : 0 < n)
    (hleft : 0 < left) (h : bits W n 0 0 = .error e) (s : NQueensSolver W n) :
    search record left 0 s = .error e := by
  obtain ⟨left, rfl⟩ := Nat.exists_eq_succ_of_ne_zero (Nat.ne_of_gt hleft)
  obtain ⟨l, hl⟩ := range_eq_cons hn
  rw [search, hl, List.foldlM_cons]
  exact bind_eq_error.mpr (.inl (bind_eq_error.mpr (.inl (bind_eq_error.mpr (.inl h)))))

theorem perform_first {s : NQueensSolver W n} {e : Fault} (hn : 0 < n) (h : bits W n 0 0 = .error e) (c : Call) :
    perform s c = .error e := by
  rw [perform_eq]
  exact bind_eq_error.mpr (.inl (search_first hn hn h _))

theorem bits_first (hn : n < 2 ^ 31) (hW : W < n) (h0 : 0 < W) : bits W n 0 0 = .error .shift := by
  have hbit : bit W ((n : Int) - 1) = .error .shift := if_neg (by omega)
  have hint : ∀ x : Int, 0 ≤ x → x ≤ n → int x = .ok x :=
    fun x h₀ hx => int_eq_ok.mpr (CInt.fit_of (by omega) (by omega))
  clear hn
  simp only [bits, bind_eq_error]
  refine .inr
    ⟨_, bit_eq_ok.mpr ⟨⟨by omega, by omega⟩, rfl⟩, .inr ⟨0, hint 0 (by omega) (by omega), .inr ⟨n, ?_, .inr
    ⟨n - 1, hint _ (by omega) (by omega), .inl hbit⟩⟩⟩⟩
  rw [Int.zero_add]
  exact hint n (by omega) (by omega)

/-- The last column of the row `33 - n` is too far out. -/
theorem perform_shift (hlo : 17 ≤ n) (hhi : n ≤ 32) (c : Call) : perform (construct 32 n) c = .error .shift := by
  cases h : perform (construct 32 n) c with
  | ok p =>
    obtain ⟨s', a⟩ := p
    have hq : Admissible (List.range n) Free ((knights 8).take (33 - n)) := by
      apply Admissible.of_append (t := (knights 8).drop (33 - n))
      rw [List.take_append_drop]
      exact admissible_knights (by omega) (by decide)
    have hlen : ((knights 8).take (33 - n)).length = 33 - n := by
      rw [List.length_take, length_knights]
      omega
    obtain ⟨b, hb⟩ := perform_reach (List.length_replicate ..) h hq (by omega) (show n - 1 < n by omega)
    have := (bits_eq_ok (by omega) hb).1.2
    omega
  | error e =>
    cases e with
    | shift => rfl
    | overflow =>
      obtain ⟨i, hi, d, hd, he⟩ := perform_eq_error h
      exact absurd he (bits_ne_overflow (by omega) hi hd)

end

/-- The shifts are in range, and the bits distinct, for up to sixteen queens and no more. -/
theorem shifts_in_range_iff {n : Nat} (hn : n < 2 ^ 31) (c : Call) :
    ((∀ calls s, (solver 32 n).exec calls = some s → perform s c ≠ .error .shift) ∧ Distinct 32 n) ↔ n ≤ 16 := by
  constructor
  · rintro ⟨h, -⟩
    by_contra hlt
    refine h [] _ rfl ?_
    rcases Nat.lt_or_ge 32 n with h32 | h32
    · exact perform_first (by omega) (bits_first hn h32 (by decide)) c
    · exact perform_shift (by omega) h32 c
  · refine fun hle => ⟨fun calls s _ h => ?_, distinct⟩
    obtain ⟨i, hi, d, hd, he⟩ := perform_eq_error h
    obtain ⟨b, hb⟩ := bits_ok (W := 32) (by omega) (by omega) hi hd
    cases hb.symm.trans he

theorem shifts_in_range_iff_eight : ((∀ calls s, (solver 32 8).exec calls = some s →
    perform s .countSolutions ≠ .error .shift) ∧ Distinct 32 8) ↔ 8 ≤ 16 :=
  shifts_in_range_iff (by decide) .countSolutions

/-- Thirty-three queens: `1u << 32` for the first square. -/
theorem shift_out_of_range :
    ∃ s, (solver 32 33).exec [] = some s ∧ perform s .solveAll = .error .shift :=
  ⟨_, rfl, perform_first (by decide) (bits_first (by decide) (by decide) (by decide)) .solveAll⟩

end Playground.NQueens
