import Mathlib.Order.Lattice
import Mathlib.Order.RelClasses
import Playground.Lib.Loop
import Playground.Lib.Machine
import Playground.Lib.OrdMap

/-!
# The matching engine (`systems/hft/matching_engine.cpp`)

Two price maps of FIFO lists. An incoming order is matched against the best
level of the opposite map, one resting order at a time, and what is left of
it rests in its own map.

Prices are an arbitrary linear order `P` (a `double` that is never NaN). Ids
and timestamps are 64-bit and quantities 32-bit unsigned integers, with their
wraparound. Each map is an `OrdMap` whose comparison says which price comes
first: `(· < ·)` for the asks, `(· > ·)` for the bids. The loops of the two
matching functions are one body read at these two comparisons.
-/

namespace Playground.MatchingEngine

inductive Side
  | Buy
  | Sell
  deriving DecidableEq, Repr

structure Order (P : Type) where
  id : UInt64
  side : Side
  price : P
  quantity : UInt32
  timestamp : UInt64
  deriving DecidableEq, Repr

structure Trade (P : Type) where
  buyOrderId : UInt64
  sellOrderId : UInt64
  price : P
  quantity : UInt32
  deriving DecidableEq, Repr

abbrev Book (P : Type) (lt : P → P → Prop) := OrdMap P (List (Order P)) lt

/-- The orders of a book, level by level and front to back. -/
def Book.orders {P : Type} {lt : P → P → Prop} (b : Book P lt) : List (Order P) := b.entries.flatMap Prod.snd

structure Engine (P : Type) [LinearOrder P] where
  bids : Book P (· > ·) := OrdMap.empty
  asks : Book P (· < ·) := OrdMap.empty
  trades : List (Trade P) := []
  nextOrderId : UInt64 := 1
  timestamp : UInt64 := 0

/-! ## Matching -/

section
variable {P : Type} {lt : P → P → Prop} [DecidableRel lt]

/-- The variables the matching loop changes: the incoming order, the opposite
book and the trade log. -/
structure Sweep (P : Type) (lt : P → P → Prop) where
  order : Order P
  book : Book P lt
  trades : List (Trade P)

/-- The `while` loop of `matchBuy` and `matchSell`, once: `front()` of an
empty level is undefined behaviour. -/
def matchBody (mkTrade : Order P → Order P → UInt32 → Trade P) (s : Sweep P lt) :
    Loop.Outcome (Sweep P lt) :=
  if s.order.quantity > 0 then
    match s.book.entries with
    | [] => .exit
    | (best, orders) :: _ =>
      if lt s.order.price best then .exit -- no match possible
      else
        match orders with
        | [] => .fault
        | resting :: rest =>
          let fillQty := min s.order.quantity resting.quantity
          let order := { s.order with quantity := s.order.quantity - fillQty }
          let left := { resting with quantity := resting.quantity - fillQty }
          let book :=
            if left.quantity = 0 then
              if rest.isEmpty then s.book.eraseBegin else s.book.setBegin rest
            else s.book.setBegin (left :: rest)
          .next ⟨order, book, s.trades ++ [mkTrade s.order resting fillQty]⟩
  else .exit

/-- Rounds that are always enough: every round but the last drops an order. -/
def matchFuel (b : Book P lt) : Nat := b.orders.length + 2

def matchLoop (mkTrade : Order P → Order P → UInt32 → Trade P) (order : Order P) (book : Book P lt)
    (trades : List (Trade P)) : Option (Sweep P lt) :=
  Loop.run (matchBody mkTrade) (matchFuel book) ⟨order, book, trades⟩

def pushBack [IsStrictTotalOrder P lt] (book : Book P lt) (order : Order P) : Book P lt :=
  book.alter order.price fun level => some (level.getD [] ++ [order])

def restOrder [IsStrictTotalOrder P lt] (book : Book P lt) (order : Order P) : Book P lt :=
  if order.quantity > 0 then pushBack book order else book

end

section
variable {P : Type} [LinearOrder P]

def buyTrade (order resting : Order P) (fillQty : UInt32) : Trade P :=
  ⟨order.id, resting.id, resting.price, fillQty⟩

def sellTrade (order resting : Order P) (fillQty : UInt32) : Trade P :=
  ⟨resting.id, order.id, resting.price, fillQty⟩

/-- The loop of `matchBuy`: a buy matches while its price is not below the best ask. -/
def matchBuyBody (s : Sweep P (· < ·)) : Loop.Outcome (Sweep P (· < ·)) :=
  if s.order.quantity > 0 then
    match s.book.entries with
    | [] => .exit
    | (bestAsk, askOrders) :: _ =>
      if s.order.price < bestAsk then .exit
      else
        match askOrders with
        | [] => .fault
        | resting :: rest =>
          let fillQty := min s.order.quantity resting.quantity
          let order := { s.order with quantity := s.order.quantity - fillQty }
          let left := { resting with quantity := resting.quantity - fillQty }
          let book :=
            if left.quantity = 0 then
              if rest.isEmpty then s.book.eraseBegin else s.book.setBegin rest
            else s.book.setBegin (left :: rest)
          .next ⟨order, book, s.trades ++ [buyTrade s.order resting fillQty]⟩
  else .exit

/-- The loop of `matchSell`: a sell matches while its price is not above the best bid. -/
def matchSellBody (s : Sweep P (· > ·)) : Loop.Outcome (Sweep P (· > ·)) :=
  if s.order.quantity > 0 then
    match s.book.entries with
    | [] => .exit
    | (bestBid, bidOrders) :: _ =>
      if s.order.price > bestBid then .exit
      else
        match bidOrders with
        | [] => .fault
        | resting :: rest =>
          let fillQty := min s.order.quantity resting.quantity
          let order := { s.order with quantity := s.order.quantity - fillQty }
          let left := { resting with quantity := resting.quantity - fillQty }
          let book :=
            if left.quantity = 0 then
              if rest.isEmpty then s.book.eraseBegin else s.book.setBegin rest
            else s.book.setBegin (left :: rest)
          .next ⟨order, book, s.trades ++ [sellTrade s.order resting fillQty]⟩
  else .exit

theorem matchBuyBody_eq : matchBuyBody (P := P) = matchBody buyTrade := rfl

theorem matchSellBody_eq : matchSellBody (P := P) = matchBody sellTrade := rfl

def matchBuy (e : Engine P) (order : Order P) : Option (Engine P) :=
  (Loop.run matchBuyBody (matchFuel e.asks) ⟨order, e.asks, e.trades⟩).map fun s =>
    { e with asks := s.book, trades := s.trades, bids := restOrder e.bids s.order }

def matchSell (e : Engine P) (order : Order P) : Option (Engine P) :=
  (Loop.run matchSellBody (matchFuel e.bids) ⟨order, e.bids, e.trades⟩).map fun s =>
    { e with bids := s.book, trades := s.trades, asks := restOrder e.asks s.order }

theorem matchBuy_eq (e : Engine P) (order : Order P) : matchBuy e order =
    (matchLoop buyTrade order e.asks e.trades).map fun s =>
      { e with asks := s.book, trades := s.trades, bids := restOrder e.bids s.order } := by
  rw [matchBuy, matchBuyBody_eq, matchLoop]

theorem matchSell_eq (e : Engine P) (order : Order P) : matchSell e order =
    (matchLoop sellTrade order e.bids e.trades).map fun s =>
      { e with bids := s.book, trades := s.trades, asks := restOrder e.asks s.order } := by
  rw [matchSell, matchSellBody_eq, matchLoop]

structure Call (P : Type) where
  side : Side
  price : P
  qty : UInt32
  deriving DecidableEq, Repr

/-- The order that `submitOrder` builds; both counters are read before they
are incremented. -/
def Engine.newOrder (e : Engine P) (c : Call P) : Order P :=
  ⟨e.nextOrderId, c.side, c.price, c.qty, e.timestamp⟩

def submitOrder (e : Engine P) (c : Call P) : Option (Engine P × UInt64) :=
  let order := e.newOrder c
  let e := { e with nextOrderId := e.nextOrderId + 1, timestamp := e.timestamp + 1 }
  let e' := match c.side with
    | .Buy => matchBuy e order
    | .Sell => matchSell e order
  e'.map fun e' => (e', order.id)

def engine (P : Type) [LinearOrder P] : Machine (Engine P) (Call P) UInt64 where
  init := {}
  step := submitOrder

end

end Playground.MatchingEngine
