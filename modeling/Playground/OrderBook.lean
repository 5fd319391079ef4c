import Mathlib.Order.Lattice
import Mathlib.Order.RelClasses
import Playground.Lib.Machine
import Playground.Lib.OrdMap

/-!
# The order book (`systems/hft/order_book.cpp`)

Two price maps of FIFO lists, and an index from order ids to positions in
these lists. A `std::list` iterator names a node, so the nodes of the lists
carry an address; addresses are never used twice. `cancelOrder` faults when
the iterator it erases is not a node of the list.

Prices are an arbitrary linear order `P` (a `double` that is never NaN), with
a zero for the empty sides of `getTopOfBook`. The clock reading of `addOrder`
is an argument of the call.
-/

namespace Playground.OrderBook

inductive Side
  | Buy
  | Sell
  deriving DecidableEq, Repr

structure Order (P : Type) where
  id : UInt64
  side : Side
  price : P
  quantity : UInt32
  timestamp : Int64
  deriving DecidableEq

structure Node (P : Type) where
  addr : Nat
  order : Order P
  deriving DecidableEq

abbrev OrderList (P : Type) := List (Node P)

abbrev PriceLevel (P : Type) [LinearOrder P] := OrdMap P (OrderList P) (· < ·)

structure OrderLocation (P : Type) where
  side : Side
  price : P
  it : Nat
  deriving DecidableEq

/-- `OrderBook`; `fresh` is the address of the next list node. -/
structure Book (P : Type) [LinearOrder P] where
  bids : PriceLevel P := OrdMap.empty
  asks : PriceLevel P := OrdMap.empty
  orderLookup : UInt64 → Option (OrderLocation P) := fun _ => none
  fresh : Nat := 0

section
variable {P : Type} [LinearOrder P]

/-- `(side == Side::Buy) ? bids_ : asks_`. -/
def Book.book (b : Book P) : Side → PriceLevel P
  | .Buy => b.bids
  | .Sell => b.asks

def Book.setBook (b : Book P) (side : Side) (m : PriceLevel P) : Book P :=
  match side with
  | .Buy => { b with bids := m }
  | .Sell => { b with asks := m }

def addOrder (b : Book P) (id : UInt64) (side : Side) (price : P) (qty : UInt32) (now : Int64) : Book P :=
  let node : Node P := ⟨b.fresh, id, side, price, qty, now⟩
  let level := ((b.book side).find? price).getD [] -- creates level if not exists
  let b' := b.setBook side ((b.book side).alter price fun _ => some (level ++ [node]))
  { b' with orderLookup := Function.update b.orderLookup id (some ⟨side, price, node.addr⟩), fresh := b.fresh + 1 }

/-- `list.erase(it)`, for an iterator that may be none of the list's. -/
def eraseNode (level : OrderList P) (it : Nat) : Option (OrderList P) :=
  if level.any fun n => n.addr = it then some (level.eraseP fun n => n.addr = it) else none

def cancelOrder (b : Book P) (id : UInt64) : Option (Book P × Bool) :=
  match b.orderLookup id with
  | none => some (b, false)
  | some ⟨side, price, it⟩ =>
    let orderLookup := Function.update b.orderLookup id none
    match (b.book side).find? price with
    | none => some ({ b with orderLookup }, true)
    | some level =>
      (eraseNode level it).map fun level =>
        -- remove an empty price level
        let m := (b.book side).alter price fun _ => if level.isEmpty then none else some level
        ({ b.setBook side m with orderLookup }, true)

structure TopOfBook (P : Type) [Zero P] where
  bestBid : P := 0
  bestAsk : P := 0
  bidQty : UInt32 := 0
  askQty : UInt32 := 0
  deriving DecidableEq

/-- The last entry of the bids is `rbegin()`. -/
def getTopOfBook [Zero P] (b : Book P) : TopOfBook P :=
  let top : TopOfBook P := {}
  let top := match b.bids.entries.getLast? with
    | none => top
    | some (price, level) =>
      { top with bestBid := price, bidQty := level.foldl (fun qty n => qty + n.order.quantity) top.bidQty }
  match b.asks.entries.head? with
  | none => top
  | some (price, level) =>
    { top with bestAsk := price, askQty := level.foldl (fun qty n => qty + n.order.quantity) top.askQty }

inductive Call (P : Type)
  | addOrder (id : UInt64) (side : Side) (price : P) (qty : UInt32) (now : Int64)
  | cancelOrder (id : UInt64)

def orderBook (P : Type) [LinearOrder P] : Machine (Book P) (Call P) (Option Bool) where
  init := {}
  step b
    | .addOrder id side price qty now => some (addOrder b id side price qty now, none)
    | .cancelOrder id => (cancelOrder b id).map fun p => (p.1, some p.2)

def Book.level (b : Book P) (side : Side) (price : P) : OrderList P := ((b.book side).find? price).getD []

def Book.Resting (b : Book P) (n : Node P) : Prop := ∃ side price, n ∈ b.level side price

/-- The lookup entry of `id` has node `n` as its target. -/
def Book.Points (b : Book P) (id : UInt64) (n : Node P) : Prop :=
  ∃ loc, b.orderLookup id = some loc ∧ n ∈ b.level loc.side loc.price ∧ n.addr = loc.it

end

end Playground.OrderBook
