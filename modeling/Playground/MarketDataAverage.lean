import Playground.Lib.Smoothing
import Playground.MarketDataSound

/-!
# The moving average and the bars

`ema_price_` smooths the prices of all ticks, those of closed bars too. It
stays between the lowest low and the highest high of the bars, and forgets
where it started.
-/

namespace Playground.MarketDataHandler

open Smoothing

/-- `getEMA()` of a fresh handler after the ticks. -/
def ema (ticks : List MarketTick) : ℚ := (marketDataHandler.exec ticks).elim 0 fun h => h.emaPrice

/-- The bars that were emitted, and the one that is open. -/
def bars (ticks : List MarketTick) : List OHLCVBar :=
  emitted ticks ++ (marketDataHandler.exec ticks).toList.map fun h => h.currentBar

theorem emaAlpha_mem : 0 ≤ emaAlpha ∧ emaAlpha ≤ 1 := by
  norm_num [emaAlpha]

theorem onTick_ema {h h' : MarketDataHandler} {tick : MarketTick} {e : Option OHLCVBar}
    (hs : onTick h tick = some (h', e)) :
    h'.emaPrice = (if h.emaInitialized then smooth emaAlpha h.emaPrice tick.price else tick.price) ∧
      h'.emaInitialized = true := by
  obtain ⟨bar, -, heq⟩ := Option.bind_eq_some_iff.mp hs
  obtain ⟨rfl, -⟩ := Prod.mk.inj (Option.some.inj heq)
  exact ⟨rfl, rfl⟩

theorem exec_ema {first : MarketTick} {ticks : List MarketTick} {h : MarketDataHandler}
    (he : marketDataHandler.exec (first :: ticks) = some h) :
    h.emaPrice = smoothed emaAlpha first.price (ticks.map MarketTick.price) ∧ h.emaInitialized = true := by
  induction ticks using List.reverseRecOn generalizing h with
  | nil =>
    obtain ⟨h₀, e, hinit, hs⟩ := marketDataHandler.exec_snoc_some
      (show marketDataHandler.exec ([] ++ [first]) = some h from he)
    obtain rfl := Option.some.inj hinit
    exact onTick_ema hs
  | append_singleton ticks tick ih =>
    obtain ⟨h₀, e, he₀, hs⟩ := marketDataHandler.exec_snoc_some
      (show marketDataHandler.exec (first :: ticks ++ [tick]) = some h from he)
    obtain ⟨hprice, hi⟩ := ih he₀
    obtain ⟨hprice', hi'⟩ := onTick_ema hs
    rw [hi, if_pos rfl] at hprice'
    refine ⟨?_, hi'⟩
    rw [hprice', hprice, List.map_append, smoothed_append]
    rfl

theorem exec_isSome {first : MarketTick} {ticks : List MarketTick} (hfit : CountsFit (first :: ticks)) :
    (marketDataHandler.exec (first :: ticks)).isSome := by
  obtain ⟨h, he, -⟩ := folded_exec (List.cons_ne_nil first ticks) hfit
  rw [he]
  rfl

theorem ema_cons {first : MarketTick} {ticks : List MarketTick} (hfit : CountsFit (first :: ticks)) :
    ema (first :: ticks) = smoothed emaAlpha first.price (ticks.map MarketTick.price) := by
  obtain ⟨h, he, -⟩ := folded_exec (List.cons_ne_nil first ticks) hfit
  rw [ema, he]
  exact (exec_ema he).1

theorem ema_mem {s : Set ℚ} (hs : Convex ℚ s) {first : MarketTick} {ticks : List MarketTick}
    (hfit : CountsFit (first :: ticks)) (hall : ∀ t ∈ first :: ticks, t.price ∈ s) : ema (first :: ticks) ∈ s := by
  rw [ema_cons hfit]
  refine smoothed_mem emaAlpha_mem.1 emaAlpha_mem.2 hs (hall first List.mem_cons_self) fun p hp => ?_
  obtain ⟨t, ht, rfl⟩ := List.mem_map.mp hp
  exact hall t (List.mem_cons_of_mem _ ht)

/-- Every tick belongs to a bar, whose low and high its price lies between. -/
theorem bar_of_tick {ticks : List MarketTick} (hfit : CountsFit ticks) {t : MarketTick} (ht : t ∈ ticks) :
    ∃ bar ∈ bars ticks, bar.low ≤ t.price ∧ t.price ≤ bar.high := by
  obtain ⟨h, he, done, hf⟩ := folded_exec (List.ne_nil_of_mem ht) hfit
  have hall : List.Forall₂ Describes (bars ticks) (done ++ [openRun ticks]) := by
    rw [bars, he]
    exact List.rel_append hf.closed (.cons hf.describes .nil)
  have hmem : ∃ r ∈ done ++ [openRun ticks], t ∈ r := by
    have hparts := hf.ticks ▸ ht
    rcases List.mem_append.mp hparts with ht | ht
    · obtain ⟨r, hr, htr⟩ := List.mem_flatten.mp ht
      exact ⟨r, List.mem_append_left _ hr, htr⟩
    · exact ⟨openRun ticks, List.mem_append_right _ (List.mem_singleton_self _), ht⟩
  obtain ⟨r, hr, htr⟩ := hmem
  obtain ⟨i, hi, rfl⟩ := List.getElem_of_mem hr
  have hi' : i < (bars ticks).length := hall.length_eq ▸ hi
  have hd := hall.get hi' hi
  exact ⟨_, List.getElem_mem hi', hd.low.2 ⟨t, htr, rfl⟩, hd.high.2 ⟨t, htr, rfl⟩⟩

/-- **The average**, after any ticks: the weighted mean of their prices, between the lowest low and the highest high
of the bars; and every later tick leaves nine tenths of what is left of the difference between two histories. -/
theorem ema_run (first : MarketTick) (ticks : List MarketTick) (hfit : CountsFit (first :: ticks)) :
    (marketDataHandler.exec (first :: ticks)).isSome ∧
      ema (first :: ticks) =
        (9 / 10) ^ ticks.length * first.price + weighted emaAlpha (ticks.map MarketTick.price) ∧
      (∃ bar ∈ bars (first :: ticks), bar.low ≤ ema (first :: ticks)) ∧
      (∃ bar ∈ bars (first :: ticks), ema (first :: ticks) ≤ bar.high) ∧
      ∀ first' ticks' recent, CountsFit (first :: ticks ++ recent) → CountsFit (first' :: ticks' ++ recent) →
        ema (first :: ticks ++ recent) - ema (first' :: ticks' ++ recent) =
          (9 / 10) ^ recent.length * (ema (first :: ticks) - ema (first' :: ticks')) := by
  have hfactor : 1 - emaAlpha = 9 / 10 := by norm_num [emaAlpha]
  refine ⟨exec_isSome hfit, ?_, ?_, ?_, fun first' ticks' recent hfit₁ hfit₂ => ?_⟩
  · rw [ema_cons hfit, smoothed_eq_weighted, hfactor, List.length_map, smul_eq_mul]
  · by_contra hall
    have hlow : ∀ t ∈ first :: ticks, t.price ∈ Set.Ioi (ema (first :: ticks)) := by
      intro t ht
      obtain ⟨bar, hbar, hle, _⟩ := bar_of_tick hfit ht
      exact lt_of_lt_of_le (lt_of_not_ge fun h => hall ⟨bar, hbar, h⟩) hle
    exact lt_irrefl _ (Set.mem_Ioi.mp (ema_mem (convex_Ioi _) hfit hlow))
  · by_contra hall
    have hhigh : ∀ t ∈ first :: ticks, t.price ∈ Set.Iio (ema (first :: ticks)) := by
      intro t ht
      obtain ⟨bar, hbar, _, hle⟩ := bar_of_tick hfit ht
      exact lt_of_le_of_lt hle (lt_of_not_ge fun h => hall ⟨bar, hbar, h⟩)
    exact lt_irrefl _ (Set.mem_Iio.mp (ema_mem (convex_Iio _) hfit hhigh))
  · have hfit' := hfit₂.of_prefix (List.prefix_append (first' :: ticks') recent)
    rw [List.cons_append] at hfit₁ hfit₂
    rw [List.cons_append, List.cons_append, ema_cons hfit, ema_cons hfit', ema_cons hfit₁, ema_cons hfit₂,
      List.map_append, List.map_append, smoothed_append, smoothed_append, smoothed_sub, hfactor, List.length_map,
      smul_eq_mul]

theorem ema_run_outOfOrder : (marketDataHandler.exec outOfOrder).isSome ∧
    ema outOfOrder = (9 / 10) ^ 3 * 150 + weighted emaAlpha [151, 149, 150] ∧
    (∃ bar ∈ bars outOfOrder, bar.low ≤ ema outOfOrder) ∧ (∃ bar ∈ bars outOfOrder, ema outOfOrder ≤ bar.high) ∧
    ema (outOfOrder ++ [⟨152, 1, 2000000001⟩]) - ema [⟨148, 1, 0⟩, ⟨152, 1, 2000000001⟩] =
      (9 / 10) ^ 1 * (ema outOfOrder - ema [⟨148, 1, 0⟩]) := by
  obtain ⟨hdefined, hmean, hlow, hhigh, hfade⟩ :=
    ema_run ⟨150, 100, 1000000000⟩ outOfOrder.tail (.of_length (by decide))
  exact ⟨hdefined, hmean, hlow, hhigh,
    hfade ⟨148, 1, 0⟩ [] [⟨152, 1, 2000000001⟩] (.of_length (by decide)) (.of_length (by decide))⟩

end Playground.MarketDataHandler
