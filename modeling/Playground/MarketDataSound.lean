import Mathlib.Algebra.Group.Action.Defs
import Mathlib.Algebra.GroupWithZero.Nat
import Mathlib.Algebra.Order.BigOperators.Group.List
import Mathlib.Algebra.Order.Ring.Nat
import Mathlib.Data.List.Chain
import Mathlib.Data.List.Forall2
import Mathlib.Order.Bounds.Basic
import Playground.MarketDataHandler

/-!
# The bars partition the ticks

The bar that is open describes the ticks since it was started. A tick
lengthens that run or, when it is late enough, closes it and starts the next.
No bar may take `2 ^ 31` ticks, which is a condition on the ticks alone.
-/

namespace Playground.MarketDataHandler

/-- `bar` is what the handler must make of the ticks of `run`. -/
structure Describes (bar : OHLCVBar) (run : List MarketTick) : Prop where
  first : run.head?.map MarketTick.price = some bar.open
  last : run.getLast?.map MarketTick.price = some bar.close
  high : IsGreatest {p | ∃ t ∈ run, t.price = p} bar.high
  low : IsLeast {p | ∃ t ∈ run, t.price = p} bar.low
  volume : bar.volume = (run.map fun t => t.quantity.toNat).sum
  count : bar.count = run.length
  start : run.head?.map MarketTick.timestampNs = some bar.barStartNs
  within : ∀ t ∈ run, t.timestampNs < bar.barStartNs + barDurationNs

/-- The first tick of the next bar is late for this one. -/
def Rolls (bar next : OHLCVBar) : Prop := bar.barStartNs + barDurationNs ≤ next.barStartNs

/-- Consecutive runs of ticks, none of them empty, one for each bar. -/
structure Partition (ticks : List MarketTick) (bars : List OHLCVBar) : Prop where
  runs : ∃ runs : List (List MarketTick), runs.flatten = ticks ∧ List.Forall₂ Describes bars runs
  rolls : bars.IsChain Rolls

theorem Describes.ne_nil {bar : OHLCVBar} {run : List MarketTick} (h : Describes bar run) : run ≠ [] := by
  rintro rfl
  cases h.first

/-- The ticks of the bar that is open, after one more. -/
def extend (run : List MarketTick) (tick : MarketTick) : List MarketTick :=
  if run.head?.any fun first => tick.timestampNs < first.timestampNs + barDurationNs then run ++ [tick] else [tick]

def openRun (ticks : List MarketTick) : List MarketTick := ticks.foldl extend []

/-- No bar ever takes as many ticks as an `int` cannot count. -/
def CountsFit (ticks : List MarketTick) : Prop := ∀ p, p <+: ticks → (openRun p).length < 2 ^ 31

@[simp] theorem openRun_snoc (ticks : List MarketTick) (tick : MarketTick) :
    openRun (ticks ++ [tick]) = extend (openRun ticks) tick := by
  simp [openRun]

theorem length_extend_le (run : List MarketTick) (tick : MarketTick) :
    (extend run tick).length ≤ run.length + 1 := by
  unfold extend
  split <;> simp

theorem length_openRun_le (ticks : List MarketTick) : (openRun ticks).length ≤ ticks.length := by
  induction ticks using List.reverseRecOn with
  | nil => exact Nat.le_refl 0
  | append_singleton ticks tick ih =>
    have hle := length_extend_le (openRun ticks) tick
    rw [openRun_snoc, List.length_append, List.length_singleton]
    omega

theorem CountsFit.of_prefix {p ticks : List MarketTick} (h : CountsFit ticks) (hp : p <+: ticks) : CountsFit p :=
  fun q hq => h q (hq.trans hp)

theorem CountsFit.of_length {ticks : List MarketTick} (h : ticks.length < 2 ^ 31) : CountsFit ticks := by
  intro p hp
  have hle := length_openRun_le p
  have hlen := hp.length_le
  omega

theorem sum_quantity_lt {run : List MarketTick} (hn : run.length < 2 ^ 31) :
    (run.map fun t => t.quantity.toNat).sum < 2 ^ 64 := by
  have hle := List.sum_le_card_nsmul (run.map fun t => t.quantity.toNat) (2 ^ 32) fun q hq => by
    obtain ⟨t, -, rfl⟩ := List.mem_map.mp hq
    exact t.quantity.toNat_lt.le
  rw [List.length_map, smul_eq_mul] at hle
  omega

/-! ## One tick -/

section
variable {bar : OHLCVBar} {tick : MarketTick}

theorem update_of {count : Int} (hcount : CInt.fit (bar.count + 1) = some count) : bar.update tick = some { bar with
    high := max bar.high tick.price
    low := min bar.low tick.price
    close := tick.price
    volume := (bar.volume + tick.quantity.toNat) % 2 ^ 64
    count } := by
  have hhigh : (if tick.price > bar.high then { bar with high := tick.price } else bar) =
      { bar with high := max bar.high tick.price } := by
    split
    case isTrue h => rw [max_eq_right h.le]
    case isFalse h => rw [max_eq_left (not_lt.mp h)]
  have hlow : ∀ b : OHLCVBar, (if tick.price < b.low then { b with low := tick.price } else b) =
      { b with low := min b.low tick.price } := by
    intro b
    split
    case isTrue h => rw [min_eq_right h.le]
    case isFalse h => rw [min_eq_left (not_lt.mp h)]
  rw [OHLCVBar.update, hhigh, hlow]
  simp only [hcount, Option.bind_eq_bind, Option.bind_some]

theorem update_none (hcount : 2 ^ 31 ≤ bar.count + 1) : bar.update tick = none := by
  have hlow : (if tick.price < bar.low then { bar with low := tick.price } else bar).count = bar.count := by
    split <;> rfl
  grind [OHLCVBar.update, CInt.fit_of_le hcount]

theorem prices_snoc (run : List MarketTick) :
    {p | ∃ t ∈ run ++ [tick], t.price = p} = insert tick.price {p | ∃ t ∈ run, t.price = p} := by
  ext p
  simp only [Set.mem_ofPred_eq, List.mem_append, List.mem_singleton, Set.mem_insert_iff]
  constructor
  · rintro ⟨t, ht | rfl, rfl⟩
    · exact .inr ⟨t, ht, rfl⟩
    · exact .inl rfl
  · rintro (rfl | ⟨t, ht, rfl⟩)
    · exact ⟨tick, .inr rfl, rfl⟩
    · exact ⟨t, .inl ht, rfl⟩

/-- One more tick, of the bar's time and not too many, and the bar describes it too. -/
theorem Describes.update {run : List MarketTick} (h : Describes bar run)
    (ht : tick.timestampNs < bar.barStartNs + barDurationNs) (hn : (run ++ [tick]).length < 2 ^ 31) :
    ∃ bar', bar.update tick = some bar' ∧ bar'.barStartNs = bar.barStartNs ∧ Describes bar' (run ++ [tick]) := by
  have hcount : CInt.fit (bar.count + 1) = some ((run.length + 1 : Nat) : Int) := by
    rw [h.count]
    exact CInt.fit_succ (by simpa using hn)
  have hsum := sum_quantity_lt hn
  refine ⟨_, update_of hcount, rfl, ?_⟩
  constructor
  case first => rw [List.head?_append_of_ne_nil _ h.ne_nil, h.first]
  case last => simp
  case high =>
    rw [prices_snoc, max_comm]
    exact h.high.insert tick.price
  case low =>
    rw [prices_snoc, min_comm]
    exact h.low.insert tick.price
  case volume =>
    rw [List.map_append, List.sum_append] at hsum ⊢
    rw [h.volume, Nat.mod_eq_of_lt (by simpa using hsum)]
    simp
  case count => simp
  case start => rw [List.head?_append_of_ne_nil _ h.ne_nil, h.start]
  case within =>
    intro t hm
    rcases List.mem_append.mp hm with hm | hm
    · exact h.within t hm
    · rw [List.mem_singleton.mp hm]
      exact ht

theorem describes_reset (tick : MarketTick) : ∃ bar, (reset tick.price tick.timestampNs).update tick = some bar ∧
    bar.barStartNs = tick.timestampNs ∧ Describes bar [tick] := by
  have hcount : CInt.fit ((reset tick.price tick.timestampNs).count + 1) = some 1 :=
    CInt.fit_of (x := 1) (by decide) (by decide)
  have hquantity := tick.quantity.toNat_lt
  refine ⟨_, update_of hcount, rfl, ?_⟩
  constructor
  case volume =>
    simp only [reset, Nat.zero_add, List.map_singleton, List.sum_singleton]
    omega
  all_goals simp [reset, barDurationNs]

end

/-! ## Every run -/

theorem emitted_snoc {ticks : List MarketTick} {tick : MarketTick} {h h' : MarketDataHandler} {e : Option OHLCVBar}
    (he : marketDataHandler.exec ticks = some h) (hs : onTick h tick = some (h', e)) :
    emitted (ticks ++ [tick]) = emitted ticks ++ e.toList := by
  rw [emitted, marketDataHandler.traceFrom_snoc he hs, List.filterMap_append, emitted]
  cases e <;> simp

theorem openBar_fresh {bar : OHLCVBar} (hc : bar.count = 0) (tick : MarketTick) :
    openBar bar tick = (reset tick.price tick.timestampNs, none) := by
  simp [openBar, hc, reset, barDurationNs]

theorem openBar_late {bar : OHLCVBar} (hc : bar.count ≠ 0) {tick : MarketTick}
    (ht : bar.barStartNs + barDurationNs ≤ tick.timestampNs) :
    openBar bar tick = (reset tick.price tick.timestampNs, some bar) := by
  have hel : tick.timestampNs - bar.barStartNs ≥ barDurationNs := by omega
  simp only [openBar, if_neg hc, if_pos hel]

theorem openBar_within {bar : OHLCVBar} (hc : bar.count ≠ 0) {tick : MarketTick}
    (ht : tick.timestampNs < bar.barStartNs + barDurationNs) : openBar bar tick = (bar, none) := by
  have hel : ¬ tick.timestampNs - bar.barStartNs ≥ barDurationNs := by omega
  simp only [openBar, if_neg hc, if_neg hel]

theorem onTick_of {h : MarketDataHandler} {tick : MarketTick} {bar bar' : OHLCVBar} {e : Option OHLCVBar}
    (hb : openBar h.currentBar tick = (bar, e)) (hu : bar.update tick = some bar') :
    ∃ h', onTick h tick = some (h', e) ∧ h'.currentBar = bar' := by
  simp [onTick, hb, hu]

theorem onTick_none {h : MarketDataHandler} {tick : MarketTick} {bar : OHLCVBar} {e : Option OHLCVBar}
    (hb : openBar h.currentBar tick = (bar, e)) (hu : bar.update tick = none) : onTick h tick = none := by
  simp [onTick, hb, hu]

/-- The bars that are closed describe the runs `done`, and the open one the ticks since. -/
structure Folded (ticks : List MarketTick) (bars : List OHLCVBar) (bar : OHLCVBar) (done : List (List MarketTick))
    (run : List MarketTick) : Prop where
  ticks : ticks = done.flatten ++ run
  closed : List.Forall₂ Describes bars done
  describes : Describes bar run
  rolls : (bars ++ [bar]).IsChain Rolls

theorem Describes.extend_eq {bar : OHLCVBar} {run : List MarketTick} (h : Describes bar run) (tick : MarketTick) :
    extend run tick = if tick.timestampNs < bar.barStartNs + barDurationNs then run ++ [tick] else [tick] := by
  obtain ⟨first, hfirst, hstart⟩ := Option.map_eq_some_iff.mp h.start
  simp [extend, hfirst, hstart]

theorem Folded.onTick {ticks : List MarketTick} {bars : List OHLCVBar} {h : MarketDataHandler}
    {done : List (List MarketTick)} {run : List MarketTick} (hf : Folded ticks bars h.currentBar done run)
    {tick : MarketTick} (hn : (extend run tick).length < 2 ^ 31) :
    ∃ h' e done', onTick h tick = some (h', e) ∧
      Folded (ticks ++ [tick]) (bars ++ e.toList) h'.currentBar done' (extend run tick) := by
  have hc : h.currentBar.count ≠ 0 := by
    have hpos := List.length_pos_iff.mpr hf.describes.ne_nil
    rw [hf.describes.count]
    omega
  rw [hf.describes.extend_eq] at hn ⊢
  by_cases ht : tick.timestampNs < h.currentBar.barStartNs + barDurationNs
  · rw [if_pos ht] at hn ⊢
    obtain ⟨bar', hu, hstart, hdescribes⟩ := hf.describes.update ht hn
    obtain ⟨h', htick, rfl⟩ := onTick_of (openBar_within hc ht) hu
    refine ⟨h', none, done, htick, by simp [hf.ticks], by simpa using hf.closed, hdescribes, ?_⟩
    -- the start of the bar, which the chain is about, stays
    have hr := hf.rolls
    rw [Option.toList_none, List.append_nil]
    rw [List.isChain_append] at hr ⊢
    simpa [Rolls, hstart] using hr
  · rw [if_neg ht]
    obtain ⟨bar', hu, hstart, hdescribes⟩ := describes_reset tick
    obtain ⟨h', htick, rfl⟩ := onTick_of (openBar_late hc (Int.not_lt.mp ht)) hu
    refine ⟨h', some h.currentBar, done ++ [run], htick, by simp [hf.ticks], ?_, hdescribes, ?_⟩
    · exact List.rel_append hf.closed (.cons hf.describes .nil)
    · apply hf.rolls.append (.singleton _)
      simpa [Rolls, hstart] using ht

theorem folded_exec {ticks : List MarketTick} (hn : ticks ≠ []) (hfit : CountsFit ticks) :
    ∃ h, marketDataHandler.exec ticks = some h ∧
      ∃ done, Folded ticks (emitted ticks) h.currentBar done (openRun ticks) := by
  induction ticks using List.reverseRecOn with
  | nil => exact absurd rfl hn
  | append_singleton ticks tick ih =>
    by_cases hne : ticks = []
    · subst hne
      obtain ⟨bar', hu, -, hdescribes⟩ := describes_reset tick
      obtain ⟨h, htick, rfl⟩ := onTick_of (h := {}) (openBar_fresh rfl tick) hu
      refine ⟨h, marketDataHandler.exec_snoc_of rfl htick, [], rfl, ?_, hdescribes, ?_⟩
      · rw [emitted_snoc (h := {}) rfl htick]
        exact .nil
      · rw [emitted_snoc (h := {}) rfl htick]
        exact .singleton _
    · obtain ⟨h, he, done, hf⟩ := ih hne (hfit.of_prefix (List.prefix_append ..))
      have hlen := hfit _ (List.prefix_refl _)
      rw [openRun_snoc] at hlen ⊢
      obtain ⟨h', e, done', htick, hf'⟩ := hf.onTick hlen
      refine ⟨h', marketDataHandler.exec_snoc_of he htick, done', ?_⟩
      rw [emitted_snoc he htick]
      exact hf'

/-- **The bars partition the ticks**: the emitted ones and the one that is open. -/
theorem partition_exec (ticks : List MarketTick) (hn : ticks ≠ []) (hfit : CountsFit ticks) :
    ∃ h, marketDataHandler.exec ticks = some h ∧ Partition ticks (emitted ticks ++ [h.currentBar]) := by
  obtain ⟨h, he, done, hf⟩ := folded_exec hn hfit
  refine ⟨h, he, ⟨done ++ [openRun ticks], by simpa using hf.ticks.symm, ?_⟩, hf.rolls⟩
  exact List.rel_append hf.closed (.cons hf.describes .nil)

/-- The third tick is older than the bar and belongs to it, the fourth rolls it. -/
def outOfOrder : List MarketTick :=
  [⟨150, 100, 1000000000⟩, ⟨151, 200, 1999999999⟩, ⟨149, 300, 5⟩, ⟨150, 400, 2000000000⟩]

theorem partition_exec_outOfOrder : ∃ h, marketDataHandler.exec outOfOrder = some h ∧
    Partition outOfOrder (emitted outOfOrder ++ [h.currentBar]) :=
  partition_exec outOfOrder (by decide) (.of_length (by decide))

theorem openRun_replicate (k : Nat) (tick : MarketTick) :
    openRun (List.replicate k tick) = List.replicate k tick := by
  induction k with
  | zero => rfl
  | succ k ih =>
    rw [List.replicate_succ', openRun_snoc, ih]
    cases k <;> simp [extend, List.replicate_succ, barDurationNs]

/-- The `2 ^ 31`-th tick of a bar overflows its `count`. -/
theorem partition_exec_overflow : ¬ ∀ ticks : List MarketTick, ticks ≠ [] →
    ∃ h, marketDataHandler.exec ticks = some h ∧ Partition ticks (emitted ticks ++ [h.currentBar]) := by
  intro hall
  obtain ⟨k, hk⟩ : ∃ k : Nat, k = 2 ^ 31 - 1 := ⟨_, rfl⟩
  obtain ⟨tick, -⟩ : ∃ tick : MarketTick, tick = ⟨150, 100, 0⟩ := ⟨_, rfl⟩
  obtain ⟨h', he', -⟩ := hall (List.replicate (k + 1) tick) (by simp)
  rw [List.replicate_succ'] at he'
  obtain ⟨h, e, he, htick⟩ := marketDataHandler.exec_snoc_some he'
  have hfit : CountsFit (List.replicate k tick) := .of_length (by rw [List.length_replicate]; omega)
  obtain ⟨h₁, he₁, done, hf⟩ := folded_exec (by rw [ne_eq, List.replicate_eq_nil_iff]; omega) hfit
  obtain rfl := Option.some.inj (he.symm.trans he₁)
  have hrun := hf.describes
  rw [openRun_replicate] at hrun
  have hwithin := hrun.within tick (List.mem_replicate.mpr ⟨by omega, rfl⟩)
  have hfault : h.currentBar.update tick = none := update_none (by rw [hrun.count, List.length_replicate]; omega)
  have hopen := openBar_within (by rw [hrun.count, List.length_replicate]; omega) hwithin
  cases htick.symm.trans (onTick_none hopen hfault)

end Playground.MarketDataHandler
