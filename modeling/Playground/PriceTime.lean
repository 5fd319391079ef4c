import Mathlib.Data.List.Basic
import Playground.MatchingSound

/-!
# Price-time priority

The reference specification of one call: sort the crossing orders of the
opposite side by price and then by id, and fill greedily. `priceTime_exec`:
the engine does exactly that as long as its 64-bit order ids have not
wrapped. Afterwards the id no longer tells which order came first, and
`priceTime_wrap` is a run on which the two differ.
-/

namespace Playground.MatchingEngine

/-! ## The reference specification -/

section
variable {P : Type}

def greedyFill : UInt32 → List (Order P) → List (Order P × UInt32)
  | _, [] => []
  | q, r :: rs => if q = 0 then [] else (r, min q r.quantity) :: greedyFill (q - min q r.quantity) rs

def greedyRest : UInt32 → List (Order P) → UInt32
  | q, [] => q
  | q, r :: rs => greedyRest (q - min q r.quantity) rs

/-- The quantity that fills take from the order `id`. -/
def filledQty (fills : List (Order P × UInt32)) (id : UInt64) : UInt32 :=
  ((fills.find? fun p => p.1.id == id).map Prod.snd).getD 0

/-- A resting order after the fills; gone when nothing is left of it. -/
def unfilled (fills : List (Order P × UInt32)) (r : Order P) : Option (Order P) :=
  if r.quantity - filledQty fills r.id = 0 then none
  else some { r with quantity := r.quantity - filledQty fills r.id }

def Side.other : Side → Side
  | .Buy => .Sell
  | .Sell => .Buy

variable [LinearOrder P]

def crosses (s : Side) (limit : P) (r : Order P) : Prop :=
  match s with
  | .Buy => r.price ≤ limit
  | .Sell => limit ≤ r.price

instance (s : Side) (limit : P) : DecidablePred (crosses s limit) := fun r =>
  match s with
  | .Buy => inferInstanceAs (Decidable (r.price ≤ limit))
  | .Sell => inferInstanceAs (Decidable (limit ≤ r.price))

/-- The order of preference for an incoming order of side `s`: best price,
then smallest id. -/
def preferred (s : Side) (x y : Order P) : Bool :=
  match s with
  | .Buy => x.price < y.price ∨ x.price = y.price ∧ x.id ≤ y.id
  | .Sell => y.price < x.price ∨ x.price = y.price ∧ x.id ≤ y.id

def Engine.orders (e : Engine P) : Side → List (Order P)
  | .Buy => e.bids.orders
  | .Sell => e.asks.orders

def Engine.level (e : Engine P) (s : Side) (p : P) : List (Order P) :=
  match s with
  | .Buy => (e.bids.find? p).getD []
  | .Sell => (e.asks.find? p).getD []

def candidates (e : Engine P) (c : Call P) : List (Order P) :=
  ((e.orders c.side.other).filter fun r => crosses c.side c.price r).mergeSort (preferred c.side)

def specFills (e : Engine P) (c : Call P) : List (Order P × UInt32) := greedyFill c.qty (candidates e c)

def specRest (e : Engine P) (c : Call P) : UInt32 := greedyRest c.qty (candidates e c)

/-- The trade of an incoming order `id` of side `s` with the resting order `r`. -/
def specTrade (s : Side) (id : UInt64) (r : Order P) (q : UInt32) : Trade P :=
  match s with
  | .Buy => ⟨id, r.id, r.price, q⟩
  | .Sell => ⟨r.id, id, r.price, q⟩

/-- One call follows the reference specification. -/
structure PriceTime (e : Engine P) (c : Call P) (e' : Engine P) : Prop where
  trades : e'.trades = e.trades ++ (specFills e c).map fun p => specTrade c.side e.nextOrderId p.1 p.2
  trade_ok : ∀ p ∈ specFills e c, p.1 ∈ e.orders c.side.other ∧ p.1.side = c.side.other ∧
    crosses c.side c.price p.1 ∧ 0 < p.2
  touched : ∀ p, e'.level c.side.other p = (e.level c.side.other p).filterMap (unfilled (specFills e c))
  own : ∀ p, e'.level c.side p = e.level c.side p ++
    if p = c.price ∧ specRest e c ≠ 0 then [⟨e.nextOrderId, c.side, c.price, specRest e c, e.timestamp⟩] else []
  rests : specRest e c ≠ 0 → ∀ r ∈ e'.orders c.side.other, ¬ crosses c.side c.price r

end

/-! ## The sweep of a sorted list is the greedy fill of its crossing orders -/

section
variable {P : Type} {stop : Order P → Prop} [DecidablePred stop]

theorem greedyFill_zero (rs : List (Order P)) : greedyFill 0 rs = [] := by
  cases rs <;> simp [greedyFill]

theorem greedyRest_zero (rs : List (Order P)) : greedyRest 0 rs = 0 := by
  induction rs with
  | nil => rfl
  | cons r rs ih =>
    have : (0 : UInt32) - min 0 r.quantity = 0 := by rw [eq_zero_iff_toNat, sub_min_toNat]; simp
    rw [greedyRest, this, ih]

theorem sub_min_eq_zero_or (q r : UInt32) : q - min q r = 0 ∨ r - min q r = 0 := by
  rw [eq_zero_iff_toNat, eq_zero_iff_toNat, sub_min_toNat, sub_min_toNat']
  omega

theorem sweep_eq_greedy (q : UInt32) (rs : List (Order P)) (h : rs.Pairwise fun x y => stop x → stop y) :
    (sweep stop q rs).fills = greedyFill q (rs.filter fun r => ¬ stop r) ∧
      (sweep stop q rs).leftover = greedyRest q (rs.filter fun r => ¬ stop r) := by
  induction rs generalizing q with
  | nil => exact ⟨rfl, rfl⟩
  | cons r rs ih =>
    have ih := ih (q - min q r.quantity) h.of_cons
    by_cases hs : stop r
    · have hnil : (r :: rs).filter (fun r => ¬ stop r) = [] := by
        rw [List.filter_eq_nil_iff]
        intro x hx
        rcases List.mem_cons.mp hx with rfl | hx
        · simpa using hs
        · simpa using (List.pairwise_cons.mp h).1 x hx hs
      rw [sweep_stop hs, hnil]
      exact ⟨rfl, rfl⟩
    · rw [List.filter_cons_of_pos (by simpa using hs)]
      by_cases hq : q = 0
      · subst hq
        rw [sweep_zero, greedyFill_zero, greedyRest_zero]
        exact ⟨rfl, rfl⟩
      · simp only [sweep, hq, hs, or_self, if_false, greedyFill, greedyRest]
        by_cases hz : (r.reduce (min q r.quantity)).quantity = 0
        · simp only [hz, if_true, ih, and_self]
        · have h0 : q - min q r.quantity = 0 := (sub_min_eq_zero_or q r.quantity).resolve_right hz
          simp only [hz, if_false, h0, greedyFill_zero, greedyRest_zero, and_self]

/-! ## What remains, order by order -/

theorem unfilled_nil {r : Order P} (h : r.quantity ≠ 0) : unfilled [] r = some r := by
  have : r.quantity - filledQty ([] : List (Order P × UInt32)) r.id = r.quantity := by
    simp [filledQty]
  unfold unfilled
  rw [this, if_neg h]

theorem unfilled_head (r : Order P) (f : UInt32) (fills : List (Order P × UInt32)) :
    unfilled ((r, f) :: fills) r = if (r.reduce f).quantity = 0 then none else some (r.reduce f) := by
  have : filledQty ((r, f) :: fills) r.id = f := by simp [filledQty]
  unfold unfilled
  rw [this]
  rfl

theorem unfilled_tail {r x : Order P} (h : x.id ≠ r.id) (f : UInt32) (fills : List (Order P × UInt32)) :
    unfilled ((r, f) :: fills) x = unfilled fills x := by
  have : filledQty ((r, f) :: fills) x.id = filledQty fills x.id := by simp [filledQty, Ne.symm h]
  unfold unfilled
  rw [this]

theorem filterMap_unfilled_nil {rs : List (Order P)} (h : ∀ r ∈ rs, r.quantity ≠ 0) :
    rs.filterMap (unfilled []) = rs := by
  rw [List.filterMap_congr fun r hr => unfilled_nil (h r hr)]
  exact List.filterMap_some

theorem sweep_resting_eq (q : UInt32) (rs : List (Order P)) (hp : ∀ r ∈ rs, r.quantity ≠ 0)
    (hn : (rs.map Order.id).Nodup) :
    (sweep stop q rs).resting = rs.filterMap (unfilled (sweep stop q rs).fills) := by
  induction rs generalizing q with
  | nil => rfl
  | cons r rs ih =>
    have hp' : ∀ x ∈ rs, x.quantity ≠ 0 := fun x hx => hp x (List.mem_cons_of_mem _ hx)
    rw [List.map_cons, List.nodup_cons] at hn
    have hne : ∀ x ∈ rs, x.id ≠ r.id := fun x hx e => hn.1 (e ▸ List.mem_map_of_mem hx)
    have ih := ih (q - min q r.quantity) hp' hn.2
    by_cases hs : q = 0 ∨ stop r
    · simp only [sweep, hs, if_true]
      exact (filterMap_unfilled_nil hp).symm
    · simp only [sweep, hs, if_false]
      by_cases hz : (r.reduce (min q r.quantity)).quantity = 0
      · simp only [hz, if_true]
        rw [List.filterMap_cons, unfilled_head, if_pos hz, ih]
        exact List.filterMap_congr fun x hx => (unfilled_tail (hne x hx) _ _).symm
      · simp only [hz, if_false]
        rw [List.filterMap_cons, unfilled_head, if_neg hz]
        rw [List.filterMap_congr fun x hx => unfilled_tail (hne x hx) _ _, filterMap_unfilled_nil hp']

theorem greedyFill_pos (q : UInt32) (rs : List (Order P)) (hp : ∀ r ∈ rs, r.quantity ≠ 0)
    {p : Order P × UInt32} (h : p ∈ greedyFill q rs) : p.1 ∈ rs ∧ 0 < p.2 := by
  induction rs generalizing q with
  | nil => simp [greedyFill] at h
  | cons r rs ih =>
    unfold greedyFill at h
    by_cases hq : q = 0
    · simp [hq] at h
    · rw [if_neg hq] at h
      rcases List.mem_cons.mp h with rfl | h
      · have hr := hp r (List.mem_cons_self ..)
        refine ⟨List.mem_cons_self .., ?_⟩
        rw [UInt32.lt_iff_toNat_lt, UInt32.toNat_min]
        rw [eq_zero_iff_toNat] at hq
        rw [ne_eq, eq_zero_iff_toNat] at hr
        simp only [UInt32.toNat_zero]
        omega
      · have := ih _ (fun x hx => hp x (List.mem_cons_of_mem _ hx)) h
        exact ⟨List.mem_cons_of_mem _ this.1, this.2⟩

end

/-! ## Levels of the flattened book -/

section
variable {P : Type} {lt : P → P → Prop} [IsStrictTotalOrder P lt] [DecidableRel lt] [DecidableEq P]

theorem filter_price_of_all {l : List (Order P)} {p k : P} (h : ∀ o ∈ l, o.price = k) :
    l.filter (fun o => o.price = p) = if k = p then l else [] := by
  by_cases hk : k = p
  · rw [if_pos hk, List.filter_eq_self]
    intro o ho
    simpa using (h o ho).trans hk
  · rw [if_neg hk, List.filter_eq_nil_iff]
    intro o ho
    simpa [h o ho] using hk

theorem level_eq_filterL (p : P) (m : List (P × List (Order P))) (hs : m.Pairwise fun a b => lt a.1 b.1)
    (hm : ∀ e ∈ m, ∀ o ∈ e.2, o.price = e.1) :
    (OrdMap.findL lt p m).getD [] = (m.flatMap Prod.snd).filter (fun o => o.price = p) := by
  induction m with
  | nil => rfl
  | cons e m ih =>
    obtain ⟨k, l⟩ := e
    have ih := ih hs.of_cons fun e he => hm e (List.mem_cons_of_mem _ he)
    have hl := filter_price_of_all (p := p) (hm (k, l) (List.mem_cons_self ..))
    have hrest : ¬ lt k p → (m.flatMap Prod.snd).filter (fun o => o.price = p) = [] := by
      intro hk
      rw [List.filter_eq_nil_iff]
      intro o ho
      obtain ⟨e, he, ho⟩ := List.mem_flatMap.mp ho
      have : o.price = e.1 := hm e (List.mem_cons_of_mem _ he) o ho
      have hlt : lt k e.1 := (List.pairwise_cons.mp hs).1 e he
      simp only [decide_eq_true_eq]
      exact fun h => hk (by rw [← h, this]; exact hlt)
    rw [List.flatMap_cons, List.filter_append, hl]
    simp only [OrdMap.findL]
    by_cases h₁ : lt p k
    · have hk : ¬ lt k p := fun h => OrdMap.lt_irrefl p (OrdMap.lt_trans' h₁ h)
      rw [if_pos h₁, hrest hk, if_neg (OrdMap.lt_ne h₁).symm]
      rfl
    · by_cases h₂ : lt k p
      · rw [if_neg h₁, if_pos h₂, if_neg (OrdMap.lt_ne h₂), ih]
        rfl
      · rw [if_neg h₁, if_neg h₂, if_pos (OrdMap.eq_of_not_lt h₂ h₁), hrest h₂]
        simp

theorem level_eq_filter {side : Side} {b : Book P lt} (hb : Levels (LevelOk side) b) (p : P) :
    (b.find? p).getD [] = b.orders.filter (fun o => o.price = p) :=
  level_eq_filterL p b.entries b.sorted fun e he o ho => ((hb e.1 e.2 he).order_ok o ho).2.1

omit [IsStrictTotalOrder P lt] [DecidableRel lt] in
theorem filter_unfilled (fills : List (Order P × UInt32)) (p : P) (rs : List (Order P)) :
    (rs.filterMap (unfilled fills)).filter (fun o => o.price = p) =
      (rs.filter (fun o => o.price = p)).filterMap (unfilled fills) := by
  rw [List.filter_filterMap, List.filterMap_filter]
  apply List.filterMap_congr
  intro r _
  unfold unfilled
  by_cases hz : r.quantity - filledQty fills r.id = 0
  · simp [hz]
  · simp [hz, Option.filter]

theorem level_restOrder (b : Book P lt) (o : Order P) (p : P) :
    ((restOrder b o).find? p).getD [] =
      (b.find? p).getD [] ++ if p = o.price ∧ o.quantity ≠ 0 then [o] else [] := by
  unfold restOrder
  by_cases h : o.quantity > 0
  · rw [if_pos h]
    rw [pos_iff_ne_zero] at h
    by_cases hp : p = o.price
    · subst hp
      simp [pushBack, h]
    · simp [pushBack, OrdMap.find?_alter_of_ne _ hp, hp]
  · rw [if_neg h]
    rw [pos_iff_ne_zero] at h
    simp [h]

/-! ## One call, on either side -/

variable {lt' : P → P → Prop} [IsStrictTotalOrder P lt'] [DecidableRel lt']

theorem Matched.priority {mk : Order P → Order P → UInt32 → Trade P} {o : Order P} {opp opp' : Book P lt}
    {own own' : Book P lt'} {t t' : List (Trade P)} (hm : Matched mk o opp opp' own own' t t') {side : Side}
    (hl : Levels (LevelOk side) opp) (hn : (opp.orders.map Order.id).Nodup) {rs : List (Order P)}
    (hrs : rs = opp.orders.filter fun r => ¬ stopAt lt o.price r) :
    t' = t ++ (greedyFill o.quantity rs).map (fun p => mk o p.1 p.2) ∧
      (∀ p ∈ greedyFill o.quantity rs, p.1 ∈ opp.orders ∧ p.1.side = side ∧ ¬ lt o.price p.1.price ∧ 0 < p.2) ∧
      (∀ p, (opp'.find? p).getD [] = ((opp.find? p).getD []).filterMap (unfilled (greedyFill o.quantity rs))) ∧
      (∀ p, (own'.find? p).getD [] = (own.find? p).getD [] ++
        if p = o.price ∧ greedyRest o.quantity rs ≠ 0 then
          [{ o with quantity := greedyRest o.quantity rs }] else []) ∧
      (greedyRest o.quantity rs ≠ 0 → ∀ r ∈ opp'.orders, lt o.price r.price) := by
  have hpos : ∀ r ∈ opp.orders, r.quantity ≠ 0 := fun r hr => quantity_of_levels hl hr
  have hstop : opp.orders.Pairwise fun x y => stopAt lt o.price x → stopAt lt o.price y := by
    apply (orders_sorted hl).imp
    intro x y h hx
    rcases h with h | h
    · exact OrdMap.lt_trans' hx h
    · rw [stopAt, ← h]; exact hx
  obtain ⟨hfills, hleft⟩ := sweep_eq_greedy o.quantity opp.orders hstop
  rw [← hrs] at hfills hleft
  refine ⟨?_, ?_, ?_, ?_, ?_⟩
  · rw [hm.trades, hfills]
  · intro p hp
    have hpos' : ∀ r ∈ rs, r.quantity ≠ 0 := fun r hr => hpos r (List.mem_of_mem_filter (hrs ▸ hr))
    obtain ⟨hmem, h0⟩ := greedyFill_pos _ _ hpos' hp
    rw [hrs] at hmem
    obtain ⟨hmem, hcross⟩ := List.mem_filter.mp hmem
    obtain ⟨k, l, hkl, hpl⟩ := mem_orders.mp hmem
    exact ⟨hmem, ((hl k l hkl).order_ok _ hpl).1, by simpa using hcross, h0⟩
  · intro p
    rw [level_eq_filter (hm.opp_levels _ (levelOk_closed side) hl), level_eq_filter hl, hm.opp_orders,
      sweep_resting_eq _ _ hpos hn, hfills, filter_unfilled]
  · intro p
    rw [hm.own_eq, level_restOrder, hleft]
  · intro h r hr
    rw [← hleft] at h
    exact hm.leftover_stop hl h hr

end

section
variable {P : Type} [LinearOrder P]

/-- The comparison of the book that an order of side `s` is matched against. -/
structure Against (s : Side) (lt : P → P → Prop) : Prop where
  crosses : ∀ limit r, crosses s limit r ↔ ¬ lt limit r.price
  preferred : ∀ x y, preferred s x y = true ↔ lt x.price y.price ∨ x.price = y.price ∧ x.id ≤ y.id

theorem against_buy : Against (P := P) .Buy (· < ·) where
  crosses := fun _ _ => not_lt.symm
  preferred := by simp [preferred]

theorem against_sell : Against (P := P) .Sell (· > ·) where
  crosses := fun _ _ => not_lt.symm
  preferred := by simp [preferred]

section
variable {lt lt' : P → P → Prop} [DecidableRel lt] [DecidableRel lt']

/-- The books of an engine, seen from side `s`: `opp` is the other side's. -/
structure Faces (e : Engine P) (s : Side) (opp : Book P lt) (own : Book P lt') : Prop where
  orders : e.orders s.other = opp.orders
  level_opp : ∀ p, e.level s.other p = (opp.find? p).getD []
  level_own : ∀ p, e.level s p = (own.find? p).getD []

theorem candidates_eq {e : Engine P} {c : Call P} {side : Side} {opp : Book P lt} (hs : Against c.side lt)
    (ho : e.orders c.side.other = opp.orders) (hl : Levels (LevelOk side) opp) (hf : Levels Fifo opp) :
    candidates e c = opp.orders.filter fun r => ¬ stopAt lt c.price r := by
  have hcross : (fun r => decide (crosses c.side c.price r)) = fun r => decide ¬ stopAt lt c.price r := by
    funext r
    exact decide_eq_decide.mpr (hs.crosses c.price r)
  unfold candidates
  rw [hcross, ho]
  apply List.mergeSort_of_pairwise
  apply List.Pairwise.filter
  apply orders_pairwise hl
  · -- within a level by id
    intro p l hm
    refine List.Pairwise.imp_of_mem (fun {x y} hx hy h => ?_) (hf p l hm)
    have := (hl p l hm).order_ok
    exact (hs.preferred x y).mpr (Or.inr ⟨(this x hx).2.1.trans (this y hy).2.1.symm, UInt64.le_of_lt h.1⟩)
  · intro x y h
    exact (hs.preferred x y).mpr (Or.inl h)

variable [IsStrictTotalOrder P lt] [IsStrictTotalOrder P lt']

theorem Matched.priceTime {e e' : Engine P} {c : Call P} {opp opp' : Book P lt} {own own' : Book P lt'}
    (hm : Matched (fun o r q => specTrade c.side o.id r q) (e.newOrder c) opp opp' own own' e.trades e'.trades)
    (hs : Against c.side lt) (he : Faces e c.side opp own) (he' : Faces e' c.side opp' own')
    (hl : Levels (LevelOk c.side.other) opp) (hf : Levels Fifo opp) (hn : (opp.orders.map Order.id).Nodup) :
    PriceTime e c e' := by
  obtain ⟨ht, hok, hopp, hown, hrest⟩ := hm.priority hl hn (candidates_eq hs he.orders hl hf)
  exact {
    trades := ht
    trade_ok := by
      intro p hp
      obtain ⟨hmem, hside, hlt, h0⟩ := hok p hp
      exact ⟨he.orders ▸ hmem, hside, (hs.crosses _ _).mpr hlt, h0⟩
    touched := by
      intro p
      rw [he.level_opp, he'.level_opp]
      exact hopp p
    own := by
      intro p
      rw [he.level_own, he'.level_own]
      exact hown p
    rests := by
      intro h r hr
      rw [hs.crosses, not_not]
      exact hrest h r (he'.orders ▸ hr) }

end

theorem priceTime_step {n : Nat} {e e' : Engine P} {c : Call P} (hi : Inv e) (hn : Ids n e) (h : Effect e c e') :
    PriceTime e c e' := by
  have hnd := hn.nodup
  unfold Engine.resting at hnd
  rw [List.map_append, List.nodup_append] at hnd
  obtain ⟨side, price, qty⟩ := c
  cases side with
  | Buy =>
    have hface : ∀ e : Engine P, Faces e .Buy e.asks e.bids := fun _ => ⟨rfl, fun _ => rfl, fun _ => rfl⟩
    exact Matched.priceTime h against_buy (hface e) (hface e') hi.asks hn.asks_fifo hnd.2.1
  | Sell =>
    have hface : ∀ e : Engine P, Faces e .Sell e.bids e.asks := fun _ => ⟨rfl, fun _ => rfl, fun _ => rfl⟩
    exact Matched.priceTime h against_sell (hface e) (hface e') hi.bids hn.bids_fifo hnd.1

/-- **Price-time priority** of every call of a run of fewer than `2 ^ 64` calls. -/
theorem priceTime_exec (cs : List (Call P)) (c : Call P) (hlen : (cs ++ [c]).length < 2 ^ 64) :
    ∃ e e', (engine P).exec cs = some e ∧ submitOrder e c = some (e', e.nextOrderId) ∧ PriceTime e c e' := by
  obtain ⟨e, he, hi, hn⟩ := ids_exec cs (by rw [List.length_append] at hlen; omega)
  obtain ⟨e', hs, -, -, h⟩ := submitOrder_spec hi c
  exact ⟨e, e', he, hs, priceTime_step hi hn h⟩

theorem priceTime_exec_sweep : ∃ e e', (engine Int).exec [⟨.Sell, 101, 400⟩, ⟨.Sell, 100, 200⟩] = some e ∧
    submitOrder e ⟨.Buy, 102, 500⟩ = some (e', e.nextOrderId) ∧ PriceTime e ⟨.Buy, 102, 500⟩ e' :=
  priceTime_exec _ _ (by decide)

/-! ## After the ids have wrapped -/

theorem submitOrder_zero (e : Engine P) (s : Side) (p : P) : submitOrder e ⟨s, p, 0⟩ =
    some ({ e with nextOrderId := e.nextOrderId + 1, timestamp := e.timestamp + 1 }, e.nextOrderId) := by
  cases s <;> rfl

theorem execFrom_zeros (s : Side) (p : P) (n : Nat) (e : Engine P) :
    (engine P).execFrom e (List.replicate n ⟨s, p, 0⟩) =
      some { e with nextOrderId := e.nextOrderId + UInt64.ofNat n, timestamp := e.timestamp + UInt64.ofNat n } := by
  induction n generalizing e with
  | zero =>
    have h0 : ∀ a : UInt64, a + UInt64.ofNat 0 = a := fun a => UInt64.add_zero a
    rw [List.replicate_zero, Machine.execFrom_nil, h0, h0]
  | succ n ih =>
    have hs : ∀ a : UInt64, a + 1 + UInt64.ofNat n = a + UInt64.ofNat (n + 1) := fun a => by
      rw [UInt64.ofNat_add, UInt64.add_assoc, UInt64.add_comm 1]; rfl
    rw [List.replicate_succ, Machine.execFrom_cons, show (engine P).step = submitOrder from rfl, submitOrder_zero,
      Option.bind_some, ih, hs, hs]

/-- One sell order, 64-bit many orders of quantity 0, and another sell order at the same price. -/
def wrapCalls : List (Call Int) :=
  ⟨.Sell, 1, 1⟩ :: (List.replicate (2 ^ 64 - 2) ⟨.Sell, 1, 0⟩ ++ [⟨.Sell, 1, 1⟩])

def wrapEngine : Engine Int where
  asks := ⟨[(1, [⟨1, .Sell, 1, 1, 0⟩, ⟨0, .Sell, 1, 1, 18446744073709551615⟩])], List.pairwise_singleton _ _⟩
  nextOrderId := 1
  timestamp := 0

theorem submitOrder_first : submitOrder (engine Int).init ⟨.Sell, 1, 1⟩ =
    some ({
      asks := ⟨[(1, [⟨1, .Sell, 1, 1, 0⟩])], List.pairwise_singleton _ _⟩
      nextOrderId := 2, timestamp := 1 }, 1) :=
  rfl

theorem exec_wrapCalls : (engine Int).exec wrapCalls = some wrapEngine := by
  unfold wrapCalls Machine.exec
  rw [Machine.execFrom_cons, show (engine Int).step = submitOrder from rfl, submitOrder_first, Option.bind_some,
    Machine.execFrom_append, execFrom_zeros, Option.bind_some]
  rfl

theorem candidates_wrapEngine : candidates wrapEngine ⟨.Buy, 1, 1⟩ =
    [⟨0, .Sell, 1, 1, 18446744073709551615⟩, ⟨1, .Sell, 1, 1, 0⟩] := by
  simp [candidates, wrapEngine, Side.other, Engine.orders, Book.orders, crosses, List.mergeSort,
    List.MergeSort.Internal.splitInTwo, preferred]

/-- The order with id 0 arrived last: the engine trades with id 1, the
smallest id is 0. -/
theorem priceTime_wrap : ¬ ∀ (cs : List (Call Int)) (c : Call Int) (e e' : Engine Int) (id : UInt64),
    (engine Int).exec cs = some e → submitOrder e c = some (e', id) → PriceTime e c e' := by
  intro h
  obtain ⟨e', hs, htr⟩ : ∃ e', submitOrder wrapEngine ⟨.Buy, 1, 1⟩ = some (e', 1) ∧ e'.trades = [⟨1, 1, 1, 1⟩] :=
    ⟨_, rfl, rfl⟩
  have ht := (h wrapCalls _ _ _ _ exec_wrapCalls hs).trades
  rw [htr, specFills, candidates_wrapEngine] at ht
  revert ht
  decide

end

end Playground.MatchingEngine
