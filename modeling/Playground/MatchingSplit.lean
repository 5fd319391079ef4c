import Mathlib.Algebra.BigOperators.Group.List.Basic
import Mathlib.Algebra.GroupWithZero.Nat
import Playground.PriceTime

/-!
# Splitting an order

Two sweeps, the second one over what the first one left, take from every
resting order what one sweep of the sum takes (`sweep_add`). So an order that
is submitted in two parts leaves the opposite book, the quantities traded and
the quantity left to rest as if it had been submitted whole. Only the trades
may differ: a resting order can be hit twice.
-/

namespace Playground.MatchingEngine

section
variable {P : Type}

/-! ## Two sweeps and one -/

theorem toNat_add_of_lt {a b : UInt32} (h : a.toNat + b.toNat < 2 ^ 32) : (a + b).toNat = a.toNat + b.toNat := by
  rw [UInt32.toNat_add, Nat.mod_eq_of_lt h]

theorem toNat_sub_of_le' {a b : UInt32} (h : a.toNat ≤ b.toNat) : (b - a).toNat = b.toNat - a.toNat :=
  UInt32.toNat_sub_of_le _ _ (UInt32.le_iff_toNat_le.mpr h)

theorem min_of_le {a b : UInt32} (h : a.toNat ≤ b.toNat) : min a b = a ∧ min b a = a := by
  constructor <;> rw [← UInt32.toNat_inj, UInt32.toNat_min] <;> omega

theorem Order.reduce_reduce (o : Order P) (a b : UInt32) : (o.reduce a).reduce b = o.reduce (a + b) := by
  simp only [Order.reduce, Order.mk.injEq, true_and, and_true]
  grind

section
variable {stop : Order P → Prop} [DecidablePred stop]

theorem sweep_pop {q : UInt32} {r : Order P} (hq : q ≠ 0) (hs : ¬ stop r) (h : r.quantity.toNat ≤ q.toNat)
    (rs : List (Order P)) :
    sweep stop q (r :: rs) = ⟨(r, r.quantity) :: (sweep stop (q - r.quantity) rs).fills,
      (sweep stop (q - r.quantity) rs).leftover, (sweep stop (q - r.quantity) rs).resting⟩ := by
  have hmin : min q r.quantity = r.quantity := (min_of_le h).2
  have hz : (r.reduce r.quantity).quantity = 0 := by simp
  simp only [sweep, hq, hs, or_self, if_false, hmin, hz, if_true]

theorem sweep_hit {q : UInt32} {r : Order P} (hq : q ≠ 0) (hs : ¬ stop r) (h : q.toNat < r.quantity.toNat)
    (rs : List (Order P)) :
    sweep stop q (r :: rs) = ⟨[(r, q)], 0, r.reduce q :: rs⟩ := by
  have hmin : min q r.quantity = q := (min_of_le h.le).1
  have hz : (r.reduce q).quantity ≠ 0 := by
    rw [Order.reduce_quantity, ne_eq, eq_zero_iff_toNat, toNat_sub_of_le' h.le]
    omega
  simp only [sweep, hq, hs, or_self, if_false, hmin, hz, UInt32.sub_self]

variable [DecidableEq P]

/-- What `n` taken from `r` counts for the orders `id` at the price `p`. -/
def Order.share (r : Order P) (id : UInt64) (p : P) (n : Nat) : Nat := if r.id = id ∧ r.price = p then n else 0

theorem Order.share_add (r : Order P) (id : UInt64) (p : P) (m n : Nat) :
    r.share id p (m + n) = r.share id p m + r.share id p n := by
  unfold Order.share
  split <;> rfl

/-- The quantity that fills take from the orders `id` at a price. -/
def takenAt (fills : List (Order P × UInt32)) (id : UInt64) (p : P) : Nat :=
  (fills.map fun f => f.1.share id p f.2.toNat).sum

theorem takenAt_nil (id : UInt64) (p : P) : takenAt [] id p = 0 := rfl

theorem takenAt_cons (r : Order P) (f : UInt32) (fills : List (Order P × UInt32)) (id : UInt64) (p : P) :
    takenAt ((r, f) :: fills) id p = r.share id p f.toNat + takenAt fills id p := rfl

theorem takenAt_hit (r : Order P) (q f : UInt32) (fills : List (Order P × UInt32)) (id : UInt64) (p : P) :
    takenAt [(r, q)] id p + takenAt ((r.reduce q, f) :: fills) id p =
      r.share id p (q.toNat + f.toNat) + takenAt fills id p := by
  rw [r.share_add, takenAt_cons, takenAt_cons, takenAt_nil, Nat.add_zero, ← Nat.add_assoc]
  rfl

/-- The second sweep begins where the first one ended. -/
structure SweepAdd (s₁ s₂ s : Swept P) : Prop where
  resting : s₂.resting = s.resting
  leftover : s₁.leftover.toNat + s₂.leftover.toNat = s.leftover.toNat
  taken : ∀ id p, takenAt s₁.fills id p + takenAt s₂.fills id p = takenAt s.fills id p

theorem SweepAdd.idle {s₁ s : Swept P} (hf : s₁.fills = []) (hl : s₁.leftover = 0) : SweepAdd s₁ s s where
  resting := rfl
  leftover := by simp [hl]
  taken := by simp [hf, takenAt]

/-- An order hit by the first sweep, with the second one going on in the same order. -/
theorem sweepAdd_hit (hstop : ∀ r q, stop (Order.reduce r q) ↔ stop r) {q₁ q₂ : UInt32} {r : Order P}
    (rs : List (Order P)) (hlt : q₁.toNat + q₂.toNat < 2 ^ 32) (hq : q₁ ≠ 0) (hs : ¬ stop r)
    (hr : q₁.toNat < r.quantity.toNat) :
    SweepAdd (sweep stop q₁ (r :: rs)) (sweep stop q₂ (r.reduce q₁ :: rs)) (sweep stop (q₁ + q₂) (r :: rs)) := by
  have hadd := toNat_add_of_lt hlt
  have hs₁ : ¬ stop (r.reduce q₁) := by rwa [hstop]
  have hleft : (r.reduce q₁).quantity.toNat = r.quantity.toNat - q₁.toNat := toNat_sub_of_le' hr.le
  have hq' : q₁ + q₂ ≠ 0 := by
    rw [ne_eq, eq_zero_iff_toNat] at hq ⊢
    omega
  rw [sweep_hit hq hs hr]
  by_cases hq₂ : q₂ = 0
  · subst hq₂
    rw [UInt32.add_zero, sweep_zero, sweep_hit hq hs hr]
    exact ⟨rfl, rfl, fun id p => rfl⟩
  · by_cases hr₂ : q₂.toNat < (r.reduce q₁).quantity.toNat
    · rw [sweep_hit hq₂ hs₁ hr₂, sweep_hit hq' hs (by omega)]
      refine ⟨by rw [Order.reduce_reduce], rfl, fun id p => ?_⟩
      rw [takenAt_hit, takenAt_cons, hadd]
    · have hrest : q₂ - (r.reduce q₁).quantity = q₁ + q₂ - r.quantity := by
        rw [Order.reduce_quantity]
        grind
      rw [sweep_pop hq₂ hs₁ (by omega), sweep_pop hq' hs (by omega), hrest]
      refine ⟨rfl, ?_, fun id p => ?_⟩
      · simp
      · rw [takenAt_hit, takenAt_cons, hleft, Nat.add_sub_cancel' hr.le]

theorem sweep_add (hstop : ∀ r q, stop (Order.reduce r q) ↔ stop r) (q₁ q₂ : UInt32) (rs : List (Order P))
    (hlt : q₁.toNat + q₂.toNat < 2 ^ 32) :
    SweepAdd (sweep stop q₁ rs) (sweep stop q₂ (sweep stop q₁ rs).resting) (sweep stop (q₁ + q₂) rs) := by
  have hadd := toNat_add_of_lt hlt
  induction rs generalizing q₁ with
  | nil => exact ⟨rfl, hadd.symm, fun _ _ => rfl⟩
  | cons r rs ih =>
    by_cases hq : q₁ = 0
    · subst hq
      rw [sweep_zero, UInt32.zero_add]
      exact SweepAdd.idle rfl rfl
    · by_cases hs : stop r
      · rw [sweep_stop hs, sweep_stop hs, sweep_stop hs]
        exact ⟨rfl, hadd.symm, fun _ _ => rfl⟩
      · by_cases hr : q₁.toNat < r.quantity.toNat
        · have := sweepAdd_hit hstop rs hlt hq hs hr
          rwa [show (sweep stop q₁ (r :: rs)).resting = r.reduce q₁ :: rs by rw [sweep_hit hq hs hr]]
        · have hr : r.quantity.toNat ≤ q₁.toNat := Nat.le_of_not_lt hr
          have hsub := toNat_sub_of_le' hr
          have hq' : ¬ q₁ + q₂ = 0 := by
            rw [eq_zero_iff_toNat] at hq ⊢
            omega
          have hrest : q₁ + q₂ - r.quantity = q₁ - r.quantity + q₂ := by grind
          have hlt' : (q₁ - r.quantity).toNat + q₂.toNat < 2 ^ 32 := by omega
          obtain ⟨hres, hleft, htaken⟩ := ih (q₁ - r.quantity) hlt' (toNat_add_of_lt hlt')
          rw [sweep_pop hq hs hr, sweep_pop hq' hs (by omega), hrest]
          refine ⟨hres, hleft, fun id p => ?_⟩
          rw [takenAt_cons, takenAt_cons, ← htaken]
          exact Nat.add_assoc ..

end

/-! ## Books -/

section
variable {lt : P → P → Prop} [IsStrictTotalOrder P lt] [DecidableRel lt] [DecidableEq P]

/-- A book without empty levels is its list of orders. -/
theorem entries_of_orders {side : Side} {b b' : Book P lt} (hb : Levels (LevelOk side) b)
    (hb' : Levels (LevelOk side) b') (h : b.orders = b'.orders) : b.entries = b'.entries := by
  have hfind : ∀ {b : Book P lt}, Levels (LevelOk side) b → ∀ p, b.find? p =
      if (b.find? p).getD [] = [] then none else some ((b.find? p).getD []) := by
    intro b hb p
    cases hf : b.find? p with
    | none => rfl
    | some l =>
      have hne := (hb p l (OrdMap.mem_entries.mpr hf)).nonempty
      rw [Option.getD_some, if_neg hne]
  apply OrdMap.ext_find?
  intro p
  rw [hfind hb, hfind hb', level_eq_filter hb, level_eq_filter hb', h]

def totalQty (os : List (Order P)) : Nat := (os.map fun o => o.quantity.toNat).sum

omit [DecidableEq P] in
theorem totalQty_append (os os' : List (Order P)) : totalQty (os ++ os') = totalQty os + totalQty os' := by
  simp [totalQty]

def rested (o : Order P) (q : UInt32) (p : P) : List (Order P) :=
  if p = o.price ∧ q ≠ 0 then [{ o with quantity := q }] else []

omit [IsStrictTotalOrder P lt] [DecidableRel lt] in
theorem totalQty_rested (o : Order P) (q : UInt32) (p : P) :
    totalQty (rested o q p) = if p = o.price then q.toNat else 0 := by
  unfold rested totalQty
  by_cases hq : q = 0
  · simp [hq]
  · by_cases hp : p = o.price <;> simp [hp, hq]

omit [IsStrictTotalOrder P lt] [DecidableRel lt] in
theorem rested_of_ne (o : Order P) (q : UInt32) {p : P} (h : p ≠ o.price) : rested o q p = [] :=
  if_neg fun hp => h hp.1

/-- The order of side `s`'s opposite that a trade hits. -/
def Trade.restingId (t : Trade P) : Side → UInt64
  | .Buy => t.sellOrderId
  | .Sell => t.buyOrderId

def tradedAt (s : Side) (ts : List (Trade P)) (id : UInt64) (p : P) : Nat :=
  (ts.map fun t => if t.restingId s = id ∧ t.price = p then t.quantity.toNat else 0).sum

omit [IsStrictTotalOrder P lt] [DecidableRel lt] in
theorem tradedAt_append (s : Side) (ts ts' : List (Trade P)) (id : UInt64) (p : P) :
    tradedAt s (ts ++ ts') id p = tradedAt s ts id p + tradedAt s ts' id p := by simp [tradedAt]

omit [IsStrictTotalOrder P lt] [DecidableRel lt] in
theorem tradedAt_fills (s : Side) (o : Order P) (fills : List (Order P × UInt32)) (id : UInt64) (p : P) :
    tradedAt s (fills.map fun f => specTrade s o.id f.1 f.2) id p = takenAt fills id p := by
  unfold tradedAt takenAt
  rw [List.map_map]
  congr 1
  apply List.map_congr_left
  intro f _
  cases s <;> rfl

variable {lt' : P → P → Prop} [IsStrictTotalOrder P lt'] [DecidableRel lt'] {s : Side} {o o₁ o₂ : Order P}
variable {opp opp₁ opp₂ opp' : Book P lt} {own own₁ own₂ own' : Book P lt'} {t t₁ t₂ t' : List (Trade P)}

omit [IsStrictTotalOrder P lt] in
theorem Matched.level_own {mk : Order P → Order P → UInt32 → Trade P} (hm : Matched mk o opp opp' own own' t t')
    (p : P) : (own'.find? p).getD [] =
      (own.find? p).getD [] ++ rested o (sweep (stopAt lt o.price) o.quantity opp.orders).leftover p := by
  rw [hm.own_eq, level_restOrder]
  rfl

theorem Matched.split {side : Side} (hl : Levels (LevelOk side) opp)
    (h₁ : Matched (fun o r q => specTrade s o.id r q) o₁ opp opp₁ own own₁ t t₁)
    (h₂ : Matched (fun o r q => specTrade s o.id r q) o₂ opp₁ opp₂ own₁ own₂ t₁ t₂)
    (h : Matched (fun o r q => specTrade s o.id r q) o opp opp' own own' t t')
    (hp₁ : o₁.price = o.price) (hp₂ : o₂.price = o.price) (hq : o.quantity = o₁.quantity + o₂.quantity)
    (hlt : o₁.quantity.toNat + o₂.quantity.toNat < 2 ^ 32) :
    opp₂.entries = opp'.entries ∧
      (∃ ts ts', t₂ = t ++ ts ∧ t' = t ++ ts' ∧ ∀ id p, tradedAt s ts id p = tradedAt s ts' id p) ∧
      ∀ p, ∃ os os', (own₂.find? p).getD [] = (own.find? p).getD [] ++ os ∧
        (own'.find? p).getD [] = (own.find? p).getD [] ++ os' ∧ totalQty os = totalQty os' ∧
        (p ≠ o.price → os = [] ∧ os' = []) := by
  have hstop : ∀ r q, stopAt lt o.price (Order.reduce r q) ↔ stopAt lt o.price r := fun _ _ => Iff.rfl
  obtain ⟨hres, hleft, htaken⟩ := sweep_add hstop o₁.quantity o₂.quantity opp.orders hlt
  have hopp₁ := h₁.opp_orders
  have hopp₂ := h₂.opp_orders
  have ht₁ := h₁.trades
  have ht₂ := h₂.trades
  have hopp' := h.opp_orders
  have ht' := h.trades
  have hl₁ := h₁.opp_levels _ (levelOk_closed side) hl
  rw [hp₁] at hopp₁ ht₁
  rw [hp₂, hopp₁] at hopp₂ ht₂
  rw [hq] at hopp' ht'
  refine ⟨?_, ?_, fun p => ?_⟩
  · apply entries_of_orders (h₂.opp_levels _ (levelOk_closed side) hl₁) (h.opp_levels _ (levelOk_closed side) hl)
    rw [hopp₂, hopp', hres]
  · refine ⟨_, _, by rw [ht₂, ht₁, List.append_assoc], ht', fun id p => ?_⟩
    rw [tradedAt_append, tradedAt_fills, tradedAt_fills, tradedAt_fills, htaken]
  · refine ⟨_, _, by rw [h₂.level_own, h₁.level_own, List.append_assoc], h.level_own p, ?_, fun hp => ?_⟩
    · rw [hp₁, hp₂, hq, hopp₁, totalQty_append, totalQty_rested, totalQty_rested, totalQty_rested, hp₁,
        hp₂, ← hleft]
      split <;> rfl
    · rw [rested_of_ne _ _ (by rwa [hp₁]), rested_of_ne _ _ (by rwa [hp₂]), rested_of_ne _ _ hp]
      exact ⟨rfl, rfl⟩

end

end

/-! ## The engine -/

section
variable {P : Type} [LinearOrder P]

def Engine.entries (e : Engine P) : Side → List (P × List (Order P))
  | .Buy => e.bids.entries
  | .Sell => e.asks.entries

/-- The engine `e₂` after the parts of an order of side `s` at `price`, and the
engine `e'` after the whole of it, both submitted to `e`. -/
structure SplitNeutral (e : Engine P) (s : Side) (price : P) (e₂ e' : Engine P) : Prop where
  opposite : e₂.entries s.other = e'.entries s.other
  fills : ∃ ts ts', e₂.trades = e.trades ++ ts ∧ e'.trades = e.trades ++ ts' ∧
    ∀ id p, tradedAt s ts id p = tradedAt s ts' id p
  rested : ∀ p, ∃ os os', e₂.level s p = e.level s p ++ os ∧ e'.level s p = e.level s p ++ os' ∧
    totalQty os = totalQty os' ∧ (p ≠ price → os = [] ∧ os' = [])

theorem Effect.split {e e₁ e₂ e' : Engine P} (hi : Inv e) {s : Side} {price : P} {q₁ q₂ : UInt32}
    (hlt : q₁.toNat + q₂.toNat < 2 ^ 32) (h₁ : Effect e ⟨s, price, q₁⟩ e₁) (h₂ : Effect e₁ ⟨s, price, q₂⟩ e₂)
    (h : Effect e ⟨s, price, q₁ + q₂⟩ e') : SplitNeutral e s price e₂ e' := by
  cases s with
  | Buy =>
    obtain ⟨hopp, hfills, hrested⟩ := Matched.split (s := .Buy) hi.asks h₁ h₂ h rfl rfl rfl hlt
    exact ⟨hopp, hfills, hrested⟩
  | Sell =>
    obtain ⟨hopp, hfills, hrested⟩ := Matched.split (s := .Sell) hi.bids h₁ h₂ h rfl rfl rfl hlt
    exact ⟨hopp, hfills, hrested⟩

/-- **Splitting an order is neutral**, in every state that a run reaches. -/
theorem submitOrder_split (cs : List (Call P)) (s : Side) (price : P) (q₁ q₂ : UInt32)
    (hlt : q₁.toNat + q₂.toNat < 2 ^ 32) :
    ∃ e e₁ e₂ e' id₁ id₂ id', (engine P).exec cs = some e ∧ submitOrder e ⟨s, price, q₁⟩ = some (e₁, id₁) ∧
      submitOrder e₁ ⟨s, price, q₂⟩ = some (e₂, id₂) ∧ submitOrder e ⟨s, price, q₁ + q₂⟩ = some (e', id') ∧
      SplitNeutral e s price e₂ e' := by
  obtain ⟨e, he, hi⟩ := inv_exec cs
  obtain ⟨e₁, hs₁, -, -, h₁⟩ := submitOrder_spec hi ⟨s, price, q₁⟩
  obtain ⟨e₂, hs₂, -, -, h₂⟩ := submitOrder_spec (inv_step hi h₁) ⟨s, price, q₂⟩
  obtain ⟨e', hs', -, -, h'⟩ := submitOrder_spec hi ⟨s, price, q₁ + q₂⟩
  exact ⟨e, e₁, e₂, e', _, _, _, he, hs₁, hs₂, hs', h₁.split hi hlt h₂ h'⟩

/-- The resting order of 400 is hit by both parts. -/
theorem submitOrder_split_twice : ∃ e e₁ e₂ e' id₁ id₂ id',
    (engine Int).exec [⟨.Sell, 101, 400⟩] = some e ∧ submitOrder e ⟨.Buy, 102, 300⟩ = some (e₁, id₁) ∧
      submitOrder e₁ ⟨.Buy, 102, 200⟩ = some (e₂, id₂) ∧ submitOrder e ⟨.Buy, 102, 500⟩ = some (e', id') ∧
      SplitNeutral e .Buy 102 e₂ e' :=
  submitOrder_split [⟨.Sell, 101, 400⟩] .Buy 102 300 200 (by decide)

end

end Playground.MatchingEngine
