import Mathlib.Order.Monotone.Basic
import Playground.MatchingSound

/-!
# Buyers and sellers are mirror images

Exchanging the sides and negating the prices turns a run of the engine into
another run. All that is used of the negation is that it reverses the order,
so that it embeds the asks' order of prices into that of the bids and back.
-/

namespace Playground.MatchingEngine

section
variable {P : Type}

def Side.mirror : Side → Side
  | .Buy => .Sell
  | .Sell => .Buy

variable [Neg P]

def Order.mirror (o : Order P) : Order P := { o with side := o.side.mirror, price := -o.price }

def Trade.mirror (t : Trade P) : Trade P := ⟨t.sellOrderId, t.buyOrderId, -t.price, t.quantity⟩

def Call.mirror (c : Call P) : Call P := { c with side := c.side.mirror, price := -c.price }

/-- What a level of a book is in the mirror. -/
def levelMirror (l : P × List (Order P)) : P × List (Order P) := (-l.1, l.2.map Order.mirror)

/-! ## The loop -/

section
variable {lt lt' : P → P → Prop} (f : lt ↪r lt') (hf : ∀ p, f p = -p)

def Book.mirror (b : Book P lt) : Book P lt' := b.map f (List.map Order.mirror)

def Sweep.mirror (s : Sweep P lt) : Sweep P lt' := ⟨s.order.mirror, Book.mirror f s.book, s.trades.map Trade.mirror⟩

include hf

theorem entries_mirror (b : Book P lt) : (Book.mirror f b).entries = b.entries.map levelMirror := by
  rw [Book.mirror, OrdMap.entries_map]
  apply List.map_congr_left
  intro l _
  simp [levelMirror, Prod.map, hf]

theorem matchFuel_mirror (b : Book P lt) : matchFuel (Book.mirror f b) = matchFuel b := by
  simp [matchFuel, Book.orders, entries_mirror f hf, List.flatMap_map, levelMirror, List.length_flatMap]

variable [DecidableRel lt] [DecidableRel lt']

theorem matchBody_mirror {mkTrade mkTrade' : Order P → Order P → UInt32 → Trade P}
    (hmk : ∀ o r q, mkTrade' o.mirror r.mirror q = (mkTrade o r q).mirror) (s : Sweep P lt) :
    matchBody mkTrade' (s.mirror f) = (matchBody mkTrade s).map (Sweep.mirror f) := by
  obtain ⟨order, book, trades⟩ := s
  have hlt : ∀ best, lt' (-order.price) (-best) ↔ lt order.price best := by
    intro best
    rw [← hf, ← hf, f.map_rel_iff]
  simp only [matchBody, Sweep.mirror, Order.mirror, entries_mirror f hf]
  split
  · cases hb : book.entries with
    | nil => rfl
    | cons level levels =>
      obtain ⟨best, orders⟩ := level
      simp only [List.map_cons, levelMirror, hlt]
      split
      · rfl
      · cases orders with
        | nil => rfl
        | cons resting rest =>
          simp only [List.map_cons, Loop.Outcome.map, Sweep.mirror, List.map_append, List.map_nil, ← hmk,
            List.isEmpty_map]
          congr 2
          let left : Order P := { resting with quantity := resting.quantity - min order.quantity resting.quantity }
          change (if left.quantity = 0 then _ else _) = Book.mirror f (if left.quantity = 0 then _ else _)
          split
          · split
            · exact OrdMap.map_eraseBegin f _ book
            · exact OrdMap.map_setBegin f _ book rest
          · exact OrdMap.map_setBegin f (List.map Order.mirror) book (left :: rest)
  · rfl

theorem matchLoop_mirror {mkTrade mkTrade' : Order P → Order P → UInt32 → Trade P}
    (hmk : ∀ o r q, mkTrade' o.mirror r.mirror q = (mkTrade o r q).mirror) (order : Order P) (book : Book P lt)
    (trades : List (Trade P)) :
    matchLoop mkTrade' order.mirror (Book.mirror f book) (trades.map Trade.mirror) =
      (matchLoop mkTrade order book trades).map (Sweep.mirror f) := by
  rw [matchLoop, matchFuel_mirror f hf]
  exact Loop.run_map (matchBody_mirror f hf hmk) _ ⟨order, book, trades⟩

theorem restOrder_mirror [IsStrictTotalOrder P lt] [IsStrictTotalOrder P lt'] (book : Book P lt) (order : Order P) :
    restOrder (Book.mirror f book) order.mirror = Book.mirror f (restOrder book order) := by
  have hpush : pushBack (Book.mirror f book) order.mirror = Book.mirror f (pushBack book order) := by
    have hkey : order.mirror.price = f order.price := (hf order.price).symm
    rw [pushBack, hkey]
    apply OrdMap.map_alter f (List.map Order.mirror)
    intro level
    cases level <;> simp
  by_cases h : order.quantity > 0
  · rw [restOrder, restOrder, if_pos h, hpush]
    exact if_pos h
  · rw [restOrder, restOrder, if_neg h]
    exact if_neg h

end
end

/-! ## The engine -/

section
variable {P : Type} [LinearOrder P] [Neg P]

/-- The negation, as an embedding of the one order of prices into the other. -/
def negAsks (hneg : StrictAnti fun p : P => -p) : ((· < ·) : P → P → Prop) ↪r ((· > ·) : P → P → Prop) :=
  ⟨⟨fun p => -p, hneg.injective⟩, hneg.lt_iff_gt⟩

def negBids (hneg : StrictAnti fun p : P => -p) : ((· > ·) : P → P → Prop) ↪r ((· < ·) : P → P → Prop) :=
  ⟨⟨fun p => -p, hneg.injective⟩, hneg.lt_iff_gt⟩

variable (hneg : StrictAnti fun p : P => -p)

def Engine.mirror (e : Engine P) : Engine P :=
  { e with
    bids := Book.mirror (negAsks hneg) e.asks
    asks := Book.mirror (negBids hneg) e.bids
    trades := e.trades.map Trade.mirror }

theorem mirror_init : (engine P).init.mirror hneg = (engine P).init := by
  simp [engine, Engine.mirror, Book.mirror, OrdMap.map, OrdMap.empty]

theorem matchSell_mirror (e : Engine P) (order : Order P) :
    matchSell (e.mirror hneg) order.mirror = (matchBuy e order).map (Engine.mirror hneg) := by
  have h : matchLoop sellTrade order.mirror (Book.mirror (negAsks hneg) e.asks) (e.trades.map Trade.mirror) =
      (matchLoop buyTrade order e.asks e.trades).map (Sweep.mirror (negAsks hneg)) :=
    matchLoop_mirror (negAsks hneg) (fun _ => rfl) (fun _ _ _ => rfl) order e.asks e.trades
  simp only [matchSell_eq, matchBuy_eq, Engine.mirror, h, Option.map_map]
  congr 1; funext s
  simp [Engine.mirror, Sweep.mirror, restOrder_mirror (negBids hneg) (fun _ => rfl)]

theorem matchBuy_mirror (e : Engine P) (order : Order P) :
    matchBuy (e.mirror hneg) order.mirror = (matchSell e order).map (Engine.mirror hneg) := by
  have h : matchLoop buyTrade order.mirror (Book.mirror (negBids hneg) e.bids) (e.trades.map Trade.mirror) =
      (matchLoop sellTrade order e.bids e.trades).map (Sweep.mirror (negBids hneg)) :=
    matchLoop_mirror (negBids hneg) (fun _ => rfl) (fun _ _ _ => rfl) order e.bids e.trades
  simp only [matchSell_eq, matchBuy_eq, Engine.mirror, h, Option.map_map]
  congr 1; funext s
  simp [Engine.mirror, Sweep.mirror, restOrder_mirror (negAsks hneg) (fun _ => rfl)]

theorem submitOrder_mirror (e : Engine P) (c : Call P) :
    submitOrder (e.mirror hneg) c.mirror = (submitOrder e c).map fun r => (r.1.mirror hneg, r.2) := by
  obtain ⟨side, price, qty⟩ := c
  let e₁ : Engine P := { e with nextOrderId := e.nextOrderId + 1, timestamp := e.timestamp + 1 }
  cases side with
  | Buy =>
    have h := matchSell_mirror hneg e₁ (e.newOrder ⟨.Buy, price, qty⟩)
    change (matchSell (e₁.mirror hneg) (e.newOrder ⟨.Buy, price, qty⟩).mirror).map _ = _
    simp only [h, submitOrder, Option.map_map]
    rfl
  | Sell =>
    have h := matchBuy_mirror hneg e₁ (e.newOrder ⟨.Sell, price, qty⟩)
    change (matchBuy (e₁.mirror hneg) (e.newOrder ⟨.Sell, price, qty⟩).mirror).map _ = _
    simp only [h, submitOrder, Option.map_map]
    rfl

theorem execFrom_mirror (cs : List (Call P)) (e : Engine P) :
    (engine P).execFrom (e.mirror hneg) (cs.map Call.mirror) =
    ((engine P).execFrom e cs).map (Engine.mirror hneg) := by
  induction cs generalizing e with
  | nil => rfl
  | cons c cs ih =>
    have hstep : (engine P).step (e.mirror hneg) c.mirror = ((engine P).step e c).map _ :=
      submitOrder_mirror hneg e c
    simp only [List.map_cons, Machine.execFrom_cons, hstep, Option.bind_map, Option.map_bind]
    congr 1; funext r
    exact ih r.1

/-- **Symmetry.** The mirrored calls make the mirrored trades and leave the mirrored book. -/
theorem exec_mirror (hneg : StrictAnti fun p : P => -p) (cs : List (Call P)) :
    ∃ e e', (engine P).exec cs = some e ∧ (engine P).exec (cs.map Call.mirror) = some e' ∧
      e'.trades = e.trades.map Trade.mirror ∧ e'.bids.entries = e.asks.entries.map levelMirror ∧
      e'.asks.entries = e.bids.entries.map levelMirror := by
  obtain ⟨e, he, -⟩ := inv_exec cs
  have he' : (engine P).exec (cs.map Call.mirror) = ((engine P).exec cs).map (Engine.mirror hneg) := by
    have h := execFrom_mirror hneg cs (engine P).init
    rwa [mirror_init] at h
  rw [he] at he'
  exact ⟨e, e.mirror hneg, he, he', rfl, rfl, rfl⟩

end

/-- Two sellers and a buyer that takes the first and a part of the second. -/
theorem exec_mirror_sweep : ∃ e e', (engine Int).exec [⟨.Sell, 101, 4⟩, ⟨.Sell, 102, 3⟩, ⟨.Buy, 102, 5⟩] = some e ∧
    (engine Int).exec [⟨.Buy, -101, 4⟩, ⟨.Buy, -102, 3⟩, ⟨.Sell, -102, 5⟩] = some e' ∧
      e'.trades = e.trades.map Trade.mirror ∧ e'.bids.entries = e.asks.entries.map levelMirror ∧
      e'.asks.entries = e.bids.entries.map levelMirror :=
  exec_mirror (fun _ _ h => Int.neg_lt_neg h) [⟨.Sell, 101, 4⟩, ⟨.Sell, 102, 3⟩, ⟨.Buy, 102, 5⟩]

end Playground.MatchingEngine
