import Mathlib.Data.List.Basic
import Mathlib.Data.Nat.Find

/-!
# While loops

The body of a loop, read as a function of the variables it changes, ends the
loop (`exit`), goes round once more (`next`), or faults. `run` iterates it at
most `n` times; a decreasing measure says how many times are enough.
-/

namespace Loop

/-- What one evaluation of the condition and the body of a loop does. -/
inductive Outcome (σ : Type*)
  | exit
  | next (s : σ)
  | fault

variable {σ τ : Type*}

def Outcome.map (f : σ → τ) : Outcome σ → Outcome τ
  | .exit => .exit
  | .next s => .next (f s)
  | .fault => .fault

/-- A round in which something may fault. -/
def Outcome.ofOption : Option σ → Outcome σ
  | some s => .next s
  | none => .fault

theorem Outcome.ofOption_eq_next {o : Option σ} {s : σ} : Outcome.ofOption o = .next s ↔ o = some s := by
  cases o with
  | none => simp [ofOption]
  | some t => simp [ofOption]

theorem Outcome.ofOption_ne_exit (o : Option σ) : Outcome.ofOption o ≠ .exit := by
  cases o with
  | none => simp [ofOption]
  | some t => simp [ofOption]

/-- Iterate a loop body; `none` when it faults or `n` evaluations are not enough. -/
def run (body : σ → Outcome σ) : Nat → σ → Option σ
  | 0, _ => none
  | n + 1, s =>
    match body s with
    | .exit => some s
    | .next s' => run body n s'
    | .fault => none

variable {body : σ → Outcome σ}

theorem run_exit {s : σ} (h : body s = .exit) (n : Nat) : run body (n + 1) s = some s := by
  simp [run, h]

theorem run_next {s s' : σ} (h : body s = .next s') (n : Nat) : run body (n + 1) s = run body n s' := by
  simp [run, h]

theorem run_fault {s : σ} (h : body s = .fault) (n : Nat) : run body n s = none := by
  cases n with
  | zero => rfl
  | succ n => simp [run, h]

/-- A loop whose states are known ends at the first with nothing left to do. -/
theorem run_steps {state : Nat → σ} {n : Nat} (hnext : ∀ k < n, body (state k) = .next (state (k + 1)))
    (hexit : body (state n) = .exit) {rounds : Nat} (h : n < rounds) :
    run body rounds (state 0) = some (state n) := by
  have hrest : ∀ m k, k + m = n → ∀ rounds, m < rounds → run body rounds (state k) = some (state n) := by
    intro m
    induction m with
    | zero =>
      intro k hk rounds hrounds
      obtain ⟨rounds, rfl⟩ := Nat.exists_eq_add_one.mpr hrounds
      rw [← hk, Nat.add_zero] at hexit ⊢
      exact run_exit hexit rounds
    | succ m ih =>
      intro k hk rounds hrounds
      obtain ⟨rounds, rfl⟩ := Nat.exists_eq_add_one.mpr (Nat.zero_lt_of_lt hrounds)
      rw [run_next (hnext k (by omega))]
      exact ih (k + 1) (by omega) rounds (by omega)
  exact hrest n 0 (Nat.zero_add n) rounds h

/-- The loop ends at the first state that is as `P` says, if there is one. -/
theorem run_first {state : Nat → σ} {P : Nat → Prop} (hnext : ∀ k, ¬ P k → body (state k) = .next (state (k + 1)))
    (hexit : ∀ k, P k → body (state k) = .exit) {m : Nat} (hm : P m) : ∃ n ≤ m, P n ∧ (∀ k < n, ¬ P k) ∧
      ∀ rounds > m, run body rounds (state 0) = some (state n) := by
  classical
  have hex : ∃ n, P n := ⟨m, hm⟩
  have hle : Nat.find hex ≤ m := Nat.find_min' hex hm
  refine ⟨Nat.find hex, hle, Nat.find_spec hex, fun k => Nat.find_min hex, ?_⟩
  intro rounds hrounds
  exact run_steps (fun k hk => hnext k (Nat.find_min hex hk)) (hexit _ (Nat.find_spec hex)) (by omega)

/-- The loop ends without a fault, whatever the number of rounds. -/
def Returns (body : σ → Outcome σ) (s : σ) : Prop := ∃ n s', run body n s = some s'

theorem returns_exit {s : σ} (h : body s = .exit) : Returns body s := ⟨1, s, run_exit h 0⟩

theorem not_returns_fault {s : σ} (h : body s = .fault) : ¬ Returns body s := by
  rintro ⟨n, s', hrun⟩
  rw [run_fault h] at hrun
  cases hrun

theorem returns_next {s s' : σ} (h : body s = .next s') : Returns body s ↔ Returns body s' := by
  constructor
  · rintro ⟨n, t, hrun⟩
    cases n with
    | zero => cases hrun
    | succ n => exact ⟨n, t, by rwa [run_next h] at hrun⟩
  · rintro ⟨n, t, hrun⟩
    exact ⟨n + 1, t, by rwa [run_next h]⟩

/-- Where the loop is after some rounds. -/
inductive Reaches (body : σ → Outcome σ) (s : σ) : σ → Prop
  | refl : Reaches body s s
  | next {t u : σ} : Reaches body s t → body t = .next u → Reaches body s u

/-- **Total correctness of a loop.** Under an invariant that excludes faults
and a measure that each round decreases, the loop ends, the invariant holds at
its end and the body has nothing left to do there. -/
theorem run_total (body : σ → Outcome σ) {I : σ → Prop} (m : σ → Nat) (hf : ∀ s, I s → body s ≠ .fault)
    (hs : ∀ s s', I s → body s = .next s' → I s' ∧ m s' < m s) :
    ∀ (n : Nat) (s : σ), I s → m s < n → ∃ s', run body n s = some s' ∧ I s' ∧ body s' = .exit
  | 0, _, _, h => absurd h (Nat.not_lt_zero _)
  | n + 1, s, hi, hm => by
    cases hb : body s with
    | exit => exact ⟨s, run_exit hb n, hi, hb⟩
    | fault => exact absurd hb (hf s hi)
    | next s' =>
      obtain ⟨hi', hlt⟩ := hs s s' hi hb
      rw [run_next hb]
      exact run_total body m hf hs n s' hi' (by omega)

/-- **Partial correctness of a loop.** What each round keeps holds at the end. -/
theorem run_inv {I : σ → Prop} (hs : ∀ s s', I s → body s = .next s' → I s') {n : Nat} {s s' : σ}
    (hrun : run body n s = some s') (hi : I s) : I s' ∧ body s' = .exit := by
  induction n generalizing s with
  | zero => cases hrun
  | succ n ih =>
    cases hb : body s with
    | exit =>
      rw [run_exit hb] at hrun
      cases hrun
      exact ⟨hi, hb⟩
    | fault =>
      rw [run, hb] at hrun
      cases hrun
    | next t =>
      rw [run_next hb] at hrun
      exact ih hrun (hs s t hi hb)

/-- A loop whose rounds do not fault, keep an invariant and go down along a well-founded relation ends. -/
theorem run_wellFounded {β : Type*} {r : β → β → Prop} (hwf : WellFounded r) (m : σ → β) {I : σ → Prop}
    (h : ∀ s, I s → body s = .exit ∨ ∃ s', body s = .next s' ∧ I s' ∧ r (m s') (m s)) (s : σ) (hi : I s) :
    ∃ n s', run body n s = some s' := by
  induction hb : m s using hwf.induction generalizing s with
  | _ b ih =>
    rcases h s hi with hexit | ⟨s', hnext, hi', hlt⟩
    · exact ⟨1, s, run_exit hexit 0⟩
    · subst hb
      obtain ⟨n, t, hrun⟩ := ih _ hlt s' hi' rfl
      exact ⟨n + 1, t, by rw [run_next hnext, hrun]⟩

/-- A loop `while (c) round` whose rounds do not fault, keep an invariant and decrease a measure. -/
theorem run_while {c : σ → Prop} [DecidablePred c] {round : σ → Option σ} {I : σ → Prop} (m : σ → Nat)
    (h : ∀ s, I s → c s → ∃ s', round s = some s' ∧ I s' ∧ m s' < m s) {n : Nat} {s : σ} (hi : I s) (hn : m s < n) :
    ∃ s', run (fun s => if c s then .ofOption (round s) else .exit) n s = some s' ∧ I s' ∧ ¬ c s' := by
  obtain ⟨s', hrun, hi', hexit⟩ := run_total (fun s => if c s then .ofOption (round s) else .exit) (I := I) m
    (fun s hi hb => by
      by_cases hc : c s
      · obtain ⟨s', hr, -⟩ := h s hi hc
        rw [if_pos hc, hr] at hb
        cases hb
      · rw [if_neg hc] at hb
        cases hb)
    (fun s s' hi hb => by
      by_cases hc : c s
      · obtain ⟨t, hr, hit, hlt⟩ := h s hi hc
        rw [if_pos hc, hr] at hb
        cases hb
        exact ⟨hit, hlt⟩
      · rw [if_neg hc] at hb
        cases hb) n s hi hn
  refine ⟨s', hrun, hi', fun hc => ?_⟩
  obtain ⟨t, hr, -⟩ := h s' hi' hc
  rw [if_pos hc, hr] at hexit
  cases hexit

/-- The loop goes on while `C` holds, and then a round is one of those of `R`. -/
structure While (body : σ → Outcome σ) (C I : σ → Prop) (R : σ → σ → Prop) : Prop where
  exit : ∀ s, ¬ C s → body s = .exit
  next : ∀ s, I s → C s → ∃ s', body s = .next s' ∧ R s s'

namespace While

variable {C I : σ → Prop} {R : σ → σ → Prop} (h : While body C I R)

include h

theorem rel {s s' : σ} (hi : I s) (hb : body s = .next s') : R s s' := by
  by_cases hc : C s
  · obtain ⟨s'', hb', hr⟩ := h.next s hi hc
    rw [hb] at hb'
    cases hb'
    exact hr
  · rw [h.exit s hc] at hb
    cases hb

theorem ne_fault {s : σ} (hi : I s) : body s ≠ .fault := by
  intro hb
  by_cases hc : C s
  · obtain ⟨s', hb', -⟩ := h.next s hi hc
    rw [hb] at hb'
    cases hb'
  · rw [h.exit s hc] at hb
    cases hb

theorem not_of_exit {s : σ} (hi : I s) (hb : body s = .exit) : ¬ C s := by
  intro hc
  obtain ⟨s', hb', -⟩ := h.next s hi hc
  rw [hb] at hb'
  cases hb'

/-- Each round keeps `I` and one more property, and decreases the measure. -/
theorem total_lt {P : σ → Prop} (m : σ → Nat) (hI : ∀ s s', I s → R s s' → I s')
    (hP : ∀ s s', I s → P s → R s s' → P s') (hm : ∀ s s', I s → R s s' → m s' < m s) {s : σ} (hi : I s) (hp : P s)
    {n : Nat} (hn : m s < n) : ∃ s', run body n s = some s' ∧ I s' ∧ P s' ∧ ¬ C s' := by
  obtain ⟨s', hrun, ⟨hi', hp'⟩, hexit⟩ := run_total body (I := fun s => I s ∧ P s) m (fun s hs => h.ne_fault hs.1)
    (fun s s' hs hb => by
      have hr := h.rel hs.1 hb
      exact ⟨⟨hI s s' hs.1 hr, hP s s' hs.1 hs.2 hr⟩, hm s s' hs.1 hr⟩)
    n s ⟨hi, hp⟩ hn
  exact ⟨s', hrun, hi', hp', h.not_of_exit hi' hexit⟩

theorem total {P : σ → Prop} (m : σ → Nat) (hI : ∀ s s', I s → R s s' → I s')
    (hP : ∀ s s', I s → P s → R s s' → P s') (hm : ∀ s s', I s → R s s' → m s' < m s) {s : σ} (hi : I s)
    (hp : P s) :
    ∃ n s', run body n s = some s' ∧ I s' ∧ P s' ∧ ¬ C s' :=
  ⟨m s + 1, h.total_lt m hI hP hm hi hp (Nat.lt_succ_self _)⟩

theorem reaches (hI : ∀ s s', I s → R s s' → I s') {s t : σ} (hr : Reaches body s t) (hi : I s) : I t := by
  induction hr with
  | refl => exact hi
  | next _ hb ih => exact hI _ _ ih (h.rel ih hb)

end While

theorem run_none {I : σ → Prop} (h : ∀ s, I s → ∃ s', body s = .next s' ∧ I s') (n : Nat) {s : σ} (hi : I s) :
    run body n s = none := by
  induction n generalizing s with
  | zero => rfl
  | succ n ih =>
    obtain ⟨s', hb, hi'⟩ := h s hi
    rw [run_next hb]
    exact ih hi'

/-- **A loop along a list.** It goes round once for each element that is left, and ends with none. -/
theorem run_traverse {β : Type*} {I : List β → σ → Prop} (hnil : ∀ s, I [] s → body s = .exit)
    (hcons : ∀ b l s, I (b :: l) s → ∃ s', body s = .next s' ∧ I l s') {l : List β} {n : Nat} {s : σ} (hi : I l s)
    (hn : l.length < n) : ∃ s', run body n s = some s' ∧ I [] s' := by
  induction l generalizing n s with
  | nil =>
    obtain ⟨n, rfl⟩ := Nat.exists_eq_add_one.mpr hn
    exact ⟨s, run_exit (hnil s hi) n, hi⟩
  | cons b l ih =>
    obtain ⟨n, rfl⟩ := Nat.exists_eq_add_one.mpr (Nat.zero_lt_of_lt hn)
    obtain ⟨s', hb, hi'⟩ := hcons b l s hi
    rw [run_next hb]
    exact ih hi' (by simpa using hn)

/-! ## For loops -/

/-- **A loop over a list**, with an invariant for each number of elements that are done. -/
theorem forEach {β : Type*} {round : σ → β → Option σ} {I : Nat → σ → Prop} {l : List β}
    (hround : ∀ (i : Nat) (hi : i < l.length) (s : σ), I i s → ∃ s', round s l[i] = some s' ∧ I (i + 1) s') {s : σ}
    (hs : I 0 s) : ∃ s', l.foldlM round s = some s' ∧ I l.length s' := by
  have hpart : ∀ i ≤ l.length, ∃ s', (l.take i).foldlM round s = some s' ∧ I i s' := by
    intro i
    induction i with
    | zero => exact fun _ => ⟨s, rfl, hs⟩
    | succ i ih =>
      intro hi
      obtain ⟨t, hrun, ht⟩ := ih (Nat.le_of_succ_le hi)
      obtain ⟨t', ht', hi'⟩ := hround i hi t ht
      refine ⟨t', ?_, hi'⟩
      rw [List.take_succ_eq_append_getElem hi, List.foldlM_append, hrun]
      simp [ht']
  obtain ⟨s', hrun, hs'⟩ := hpart l.length (Nat.le_refl _)
  exact ⟨s', by rwa [List.take_length] at hrun, hs'⟩

theorem forEach_eq {β : Type*} {round : σ → β → Option σ} {s : Nat → σ} {l : List β}
    (hround : ∀ (i : Nat) (hi : i < l.length), round (s i) l[i] = some (s (i + 1))) :
    l.foldlM round (s 0) = some (s l.length) := by
  obtain ⟨t, hrun, rfl⟩ := forEach (l := l) (I := fun i t => t = s i)
    (fun i hi t ht => ⟨s (i + 1), ht ▸ hround i hi, rfl⟩) rfl
  exact hrun

/-- A loop over a list whose rounds fault exactly where their conditions fail. -/
theorem forEach_iff {β : Type*} {round : σ → β → Option σ} {s : Nat → σ} {ok : Nat → Prop} {l : List β}
    (hround : ∀ (i : Nat) (hi : i < l.length) (t : σ), round (s i) l[i] = some t ↔ ok i ∧ s (i + 1) = t) {t : σ} :
    l.foldlM round (s 0) = some t ↔ (∀ i < l.length, ok i) ∧ s l.length = t := by
  induction l generalizing s ok with
  | nil => simp
  | cons b l ih =>
    rw [List.foldlM_cons, Option.bind_eq_bind, Option.bind_eq_some_iff]
    have hrest := @ih (fun i => s (i + 1)) (fun i => ok (i + 1)) fun i hi => hround (i + 1) (Nat.succ_lt_succ hi)
    constructor
    · rintro ⟨u, hu, hrun⟩
      obtain ⟨hok, rfl⟩ := (hround 0 (Nat.zero_lt_succ _) u).mp hu
      obtain ⟨hall, ht⟩ := hrest.mp hrun
      refine ⟨fun i hi => ?_, ht⟩
      cases i with
      | zero => exact hok
      | succ i => exact hall i (Nat.lt_of_succ_lt_succ hi)
    · rintro ⟨hall, ht⟩
      exact ⟨s 1, (hround 0 (Nat.zero_lt_succ _) _).mpr ⟨hall 0 (Nat.zero_lt_succ _), rfl⟩,
        hrest.mpr ⟨fun i hi => hall (i + 1) (Nat.succ_lt_succ hi), ht⟩⟩

theorem forEach_none {β : Type*} {round : σ → β → Option σ} {l : List β} {b : β} (hb : b ∈ l)
    (hnone : ∀ s, round s b = none) (s : σ) : l.foldlM round s = none := by
  induction l generalizing s with
  | nil => cases hb
  | cons c l ih =>
    rw [List.foldlM_cons]
    rcases List.mem_cons.mp hb with rfl | hb
    · rw [hnone s]
      rfl
    · cases round s c with
      | none => rfl
      | some t => exact ih hb t

theorem forRange {round : σ → Nat → Option σ} {I : Nat → σ → Prop} {n : Nat}
    (hround : ∀ i < n, ∀ s, I i s → ∃ s', round s i = some s' ∧ I (i + 1) s') {s : σ} (hs : I 0 s) :
    ∃ s', (List.range n).foldlM round s = some s' ∧ I n s' := by
  obtain ⟨s', hrun, hs'⟩ := forEach (l := List.range n) (I := I)
    (fun i hi s h => by simpa using hround i (by simpa using hi) s h) hs
  exact ⟨s', hrun, by simpa using hs'⟩

theorem run_congr {body' : σ → Outcome σ} {I : σ → Prop} (hb : ∀ s, I s → body' s = body s)
    (hs : ∀ s s', I s → body s = .next s' → I s') (n : Nat) {s : σ} (hi : I s) : run body' n s = run body n s := by
  induction n generalizing s with
  | zero => rfl
  | succ n ih =>
    simp only [run, hb s hi]
    cases h : body s with
    | exit => rfl
    | fault => rfl
    | next s' => exact ih (hs s s' hi h)

/-- Two bodies that agree where the loop gets to reach the same states. -/
theorem reaches_congr {body' : σ → Outcome σ} {I : σ → Prop} (hb : ∀ s, I s → body' s = body s)
    (hs : ∀ s s', I s → body s = .next s' → I s') {s t : σ} (hr : Reaches body' s t) (hi : I s) :
    Reaches body s t ∧ I t := by
  induction hr with
  | refl => exact ⟨.refl, hi⟩
  | next _ hnext ih =>
    rw [hb _ ih.2] at hnext
    exact ⟨.next ih.1 hnext, hs _ _ ih.2 hnext⟩

/-- A body that only faults more often ends, where it ends, with what the other one ends with. -/
theorem run_of_faults {body' : σ → Outcome σ} {I : σ → Prop} (hb : ∀ s, I s → body' s = .fault ∨ body' s = body s)
    (hs : ∀ s s', I s → body' s = .next s' → I s') {n : Nat} {s t : σ} (hi : I s) (hrun : run body' n s = some t) :
    run body n s = some t := by
  induction n generalizing s with
  | zero => cases hrun
  | succ n ih =>
    rcases hb s hi with hf | heq
    · rw [run_fault hf] at hrun
      cases hrun
    · cases hnext : body s with
      | exit =>
        rw [hnext] at heq
        rw [run_exit heq] at hrun
        rw [run_exit hnext, hrun]
      | fault =>
        rw [hnext] at heq
        rw [run_fault heq] at hrun
        cases hrun
      | next s' =>
        rw [hnext] at heq
        rw [run_next heq] at hrun
        rw [run_next hnext]
        exact ih (hs s s' hi heq) hrun

/-- A loop whose body commutes with a renaming of its variables commutes with it. -/
theorem run_map {body' : τ → Outcome τ} {f : σ → τ} (h : ∀ s, body' (f s) = (body s).map f) (n : Nat) (s : σ) :
    run body' n (f s) = (run body n s).map f := by
  induction n generalizing s with
  | zero => rfl
  | succ n ih =>
    simp only [run, h s]
    cases body s with
    | exit => rfl
    | fault => rfl
    | next s' => exact ih s'

end Loop
