import Mathlib.Data.Rat.Init
import Mathlib.Algebra.Order.Ring.Rat
import Playground.Lib.CInt
import Playground.Lib.Machine

/-!
# The market data handler (`systems/hft/market_data_handler.cpp`)

Ticks are folded into one bar at a time. A tick that comes a second or more
after the first one of the bar emits it. Prices and timestamps are exact
numbers, and the steps of the average do not round. `volume` wraps, and
`count` may overflow. The symbol and the side of a tick are not read.
-/

namespace Playground.MarketDataHandler

def barDurationNs : Int := 1000000000

/-- A `double` in the source, `0.1`, here the number it stands for. -/
def emaAlpha : ℚ := 1 / 10

structure MarketTick where
  price : ℚ
  quantity : UInt32
  timestampNs : Int
  deriving DecidableEq

structure OHLCVBar where
  «open» : ℚ := 0
  high : ℚ := 0
  low : ℚ := 0
  close : ℚ := 0
  volume : Nat := 0
  barStartNs : Int := 0
  count : Int := 0
  deriving DecidableEq

def reset (price : ℚ) (ts : Int) : OHLCVBar :=
  { «open» := price, high := price, low := price, close := price, volume := 0, barStartNs := ts, count := 0 }

set_option linter.dupNamespace false in
structure MarketDataHandler where
  currentBar : OHLCVBar := {}
  emaPrice : ℚ := 0
  emaInitialized : Bool := false
  ticksProcessed : UInt64 := 0
  deriving DecidableEq

def OHLCVBar.update (bar : OHLCVBar) (tick : MarketTick) : Option OHLCVBar := do
  let bar := if tick.price > bar.high then { bar with high := tick.price } else bar
  let bar := if tick.price < bar.low then { bar with low := tick.price } else bar
  let count ← CInt.fit (bar.count + 1)
  some { bar with
    close := tick.price
    volume := (bar.volume + tick.quantity.toNat) % 2 ^ 64
    count }

/-- The bar the tick goes to, and the bar it emits, if it does. -/
def openBar (bar : OHLCVBar) (tick : MarketTick) : OHLCVBar × Option OHLCVBar :=
  let bar := if bar.count = 0 then reset tick.price tick.timestampNs else bar
  let elapsed := tick.timestampNs - bar.barStartNs
  if elapsed ≥ barDurationNs then (reset tick.price tick.timestampNs, some bar) else (bar, none)

/-- The handler after the tick, and the bar that was emitted, if there was one. -/
def onTick (h : MarketDataHandler) (tick : MarketTick) : Option (MarketDataHandler × Option OHLCVBar) := do
  let (bar, emitted) := openBar h.currentBar tick
  let currentBar ← bar.update tick
  let emaPrice := if h.emaInitialized then h.emaPrice + emaAlpha * (tick.price - h.emaPrice) else tick.price
  some ({ currentBar, emaPrice, emaInitialized := true, ticksProcessed := h.ticksProcessed + 1 }, emitted)

def marketDataHandler : Machine MarketDataHandler MarketTick (Option OHLCVBar) where
  init := {}
  step := onTick

/-- The bars that a fresh handler emits, in order. -/
def emitted (ticks : List MarketTick) : List OHLCVBar :=
  (marketDataHandler.traceFrom marketDataHandler.init ticks).filterMap Prod.snd

end Playground.MarketDataHandler
