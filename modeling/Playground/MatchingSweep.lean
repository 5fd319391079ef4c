import Playground.MatchingEngine

/-!
# What the matching loop computes

`sweep` walks the flattened opposite book once: it lists the fills, what is
left of the incoming quantity, and the orders that remain. `matchLoop_spec`
says that the loop, which works level by level through iterators, computes
exactly that and keeps the book's levels in shape.
-/

namespace Playground.MatchingEngine

theorem sub_min_toNat (a b : UInt32) : (a - min a b).toNat = a.toNat - min a.toNat b.toNat := by
  rw [UInt32.toNat_sub_of_le _ _ (UInt32.le_iff_toNat_le.mpr (by rw [UInt32.toNat_min]; omega)),
    UInt32.toNat_min]

theorem sub_min_toNat' (a b : UInt32) : (b - min a b).toNat = b.toNat - min a.toNat b.toNat := by
  rw [UInt32.toNat_sub_of_le _ _ (UInt32.le_iff_toNat_le.mpr (by rw [UInt32.toNat_min]; omega)),
    UInt32.toNat_min]

theorem eq_zero_iff_toNat (a : UInt32) : a = 0 ↔ a.toNat = 0 := by
  rw [← UInt32.toNat_inj]; rfl

theorem pos_iff_toNat (a : UInt32) : a > 0 ↔ 0 < a.toNat := UInt32.lt_iff_toNat_lt

theorem pos_iff_ne_zero (a : UInt32) : a > 0 ↔ a ≠ 0 := by
  rw [pos_iff_toNat, ne_eq, eq_zero_iff_toNat]
  omega

section
variable {P : Type} {lt : P → P → Prop}

/-! ## One round of the loop -/

/-- The entries after a fill at the best level leaves `left` of its front order. -/
def afterFill (best : P) (left : Order P) (rest : List (Order P)) (l : List (P × List (Order P))) :
    List (P × List (Order P)) :=
  if left.quantity = 0 then (if rest.isEmpty then l else (best, rest) :: l) else (best, left :: rest) :: l

def Order.reduce (o : Order P) (q : UInt32) : Order P := { o with quantity := o.quantity - q }

@[simp] theorem Order.reduce_id (o : Order P) (q : UInt32) : (o.reduce q).id = o.id := rfl

@[simp] theorem Order.reduce_side (o : Order P) (q : UInt32) : (o.reduce q).side = o.side := rfl

@[simp] theorem Order.reduce_price (o : Order P) (q : UInt32) : (o.reduce q).price = o.price := rfl

@[simp] theorem Order.reduce_timestamp (o : Order P) (q : UInt32) : (o.reduce q).timestamp = o.timestamp := rfl

@[simp] theorem Order.reduce_quantity (o : Order P) (q : UInt32) : (o.reduce q).quantity = o.quantity - q := rfl

theorem orders_of_entries {b : Book P lt} {p : P} {l : List (Order P)} {m : List (P × List (Order P))}
    (h : b.entries = (p, l) :: m) : b.orders = l ++ m.flatMap Prod.snd := by
  simp [Book.orders, h]

theorem orders_afterFill {b : Book P lt} {best : P} {left : Order P} {rest : List (Order P)}
    {l : List (P × List (Order P))} (h : b.entries = afterFill best left rest l) :
    b.orders = (if left.quantity = 0 then rest else left :: rest) ++ l.flatMap Prod.snd := by
  unfold Book.orders
  rw [h]
  unfold afterFill
  split
  · split
    · rename_i he
      simp [List.isEmpty_iff.mp he]
    · simp
  · simp

variable [DecidableRel lt] {mk : Order P → Order P → UInt32 → Trade P}

theorem matchBody_next {s s' : Sweep P lt} (h : matchBody mk s = .next s') :
    ∃ best r rest l, s.book.entries = (best, r :: rest) :: l ∧ 0 < s.order.quantity ∧
      ¬ lt s.order.price best ∧
      s'.order = s.order.reduce (min s.order.quantity r.quantity) ∧
      s'.trades = s.trades ++ [mk s.order r (min s.order.quantity r.quantity)] ∧
      s'.book.entries = afterFill best (r.reduce (min s.order.quantity r.quantity)) rest l := by
  unfold matchBody at h
  split at h
  · rename_i hq
    split at h
    · cases h
    · rename_i best orders l he
      split at h
      · cases h
      · rename_i hlt
        split at h
        · cases h
        · rename_i r rest
          simp only [Loop.Outcome.next.injEq] at h
          subst h
          refine ⟨best, r, rest, l, he, hq, hlt, rfl, rfl, ?_⟩
          unfold afterFill
          by_cases hz : (r.reduce (min s.order.quantity r.quantity)).quantity = 0
          · have hz' : r.quantity - min s.order.quantity r.quantity = 0 := hz
            by_cases hr : rest.isEmpty = true
            · simp only [hz, hz', hr, if_true]
              exact OrdMap.entries_eraseBegin he
            · simp only [hz, hz', hr, if_true]
              exact OrdMap.entries_setBegin he _
          · have hz' : ¬ r.quantity - min s.order.quantity r.quantity = 0 := hz
            simp only [hz, hz', if_false]
            exact OrdMap.entries_setBegin he _
  · cases h

theorem matchBody_exit {s : Sweep P lt} (h : matchBody mk s = .exit) :
    s.order.quantity = 0 ∨ s.book.entries = [] ∨
      ∃ best orders l, s.book.entries = (best, orders) :: l ∧ lt s.order.price best := by
  unfold matchBody at h
  split at h
  · split at h
    · rename_i he; exact Or.inr (Or.inl he)
    · rename_i best orders l he
      split at h
      · rename_i hlt; exact Or.inr (Or.inr ⟨best, orders, l, he, hlt⟩)
      · split at h
        · cases h
        · simp at h
  · rename_i hq
    exact Or.inl (not_not.mp fun h => hq ((pos_iff_ne_zero _).mpr h))

theorem matchBody_ne_fault {s : Sweep P lt} (h : ∀ p l, (p, l) ∈ s.book.entries → l ≠ []) :
    matchBody mk s ≠ .fault := by
  intro hf
  unfold matchBody at hf
  split at hf
  · split at hf
    · cases hf
    · rename_i best orders l he
      split at hf
      · cases hf
      · split at hf
        · exact h best [] (he ▸ List.mem_cons_self ..) rfl
        · simp at hf
  · cases hf

/-! ## Levels -/

def Levels (Q : P → List (Order P) → Prop) (b : Book P lt) : Prop := ∀ p l, (p, l) ∈ b.entries → Q p l

/-- A condition on levels that fills keep: it survives dropping the front
order of a longer level, and reducing the front order to a positive quantity. -/
structure FillClosed (Q : P → List (Order P) → Prop) : Prop where
  pop : ∀ {p r l}, Q p (r :: l) → l ≠ [] → Q p l
  fill : ∀ {p r l q}, Q p (r :: l) → (r.reduce q).quantity ≠ 0 → Q p (r.reduce q :: l)

theorem levels_next {Q : P → List (Order P) → Prop} (hQ : FillClosed Q) {s s' : Sweep P lt}
    (h : matchBody mk s = .next s') (hl : Levels Q s.book) : Levels Q s'.book := by
  obtain ⟨best, r, rest, l, he, -, -, -, -, hb⟩ := matchBody_next h
  have hbest : Q best (r :: rest) := hl _ _ (he ▸ List.mem_cons_self ..)
  have hrest : ∀ p l', (p, l') ∈ l → Q p l' := fun p l' hm => hl _ _ (he ▸ List.mem_cons_of_mem _ hm)
  intro p l' hm
  rw [hb] at hm
  unfold afterFill at hm
  split at hm
  · split at hm
    · exact hrest p l' hm
    · rename_i hne
      rcases List.mem_cons.mp hm with e | hm
      · cases e
        exact hQ.pop hbest (by simpa using hne)
      · exact hrest p l' hm
  · rename_i hne
    rcases List.mem_cons.mp hm with e | hm
    · cases e
      exact hQ.fill hbest hne
    · exact hrest p l' hm

/-- What every level of a reachable book satisfies: it is not empty, and its
orders are of the book's side and the level's price and have something left. -/
structure LevelOk (side : Side) (p : P) (l : List (Order P)) : Prop where
  nonempty : l ≠ []
  order_ok : ∀ o ∈ l, o.side = side ∧ o.price = p ∧ o.quantity ≠ 0

theorem levelOk_closed (side : Side) : FillClosed (LevelOk (P := P) side) where
  pop h hne := ⟨hne, fun o ho => h.order_ok o (List.mem_cons_of_mem _ ho)⟩
  fill := by
    intro p r l q h hq
    refine ⟨by simp, fun o ho => ?_⟩
    rcases List.mem_cons.mp ho with rfl | ho
    · have := h.order_ok r (List.mem_cons_self ..)
      exact ⟨this.1, this.2.1, hq⟩
    · exact h.order_ok o (List.mem_cons_of_mem _ ho)

/-! ## The sweep of a list of resting orders -/

structure Swept (P : Type) where
  fills : List (Order P × UInt32)
  leftover : UInt32
  resting : List (Order P)

/-- Fill `q` against the orders in turn, until it is used up or `stop` holds. -/
def sweep (stop : Order P → Prop) [DecidablePred stop] : UInt32 → List (Order P) → Swept P
  | q, [] => ⟨[], q, []⟩
  | q, r :: rs =>
    if q = 0 ∨ stop r then ⟨[], q, r :: rs⟩
    else
      let f := min q r.quantity
      if (r.reduce f).quantity = 0 then
        let t := sweep stop (q - f) rs
        ⟨(r, f) :: t.fills, t.leftover, t.resting⟩
      else ⟨[(r, f)], q - f, r.reduce f :: rs⟩

/-- An order the incoming price does not reach. -/
abbrev stopAt (lt : P → P → Prop) (price : P) : Order P → Prop := fun r => lt price r.price

theorem sweep_zero {stop : Order P → Prop} [DecidablePred stop] (rs : List (Order P)) :
    sweep stop 0 rs = ⟨[], 0, rs⟩ := by
  cases rs with
  | nil => rfl
  | cons r rs => simp [sweep]

theorem sweep_stop {stop : Order P → Prop} [DecidablePred stop] {q : UInt32} {r : Order P}
    (h : stop r) (rs : List (Order P)) : sweep stop q (r :: rs) = ⟨[], q, r :: rs⟩ := by
  simp [sweep, h]

/-- The part of the sweep that one round of the loop performs. -/
theorem sweep_round {stop : Order P → Prop} [DecidablePred stop] {q : UInt32} {r : Order P}
    (rs rs' : List (Order P)) (hq : 0 < q) (hs : ¬ stop r)
    (hrs : rs' = if (r.reduce (min q r.quantity)).quantity = 0 then rs else r.reduce (min q r.quantity) :: rs) :
    let t := sweep stop (q - min q r.quantity) rs'
    sweep stop q (r :: rs) = ⟨(r, min q r.quantity) :: t.fills, t.leftover, t.resting⟩ := by
  have hq0 : q ≠ 0 := (pos_iff_ne_zero q).mp hq
  simp only [sweep, hq0, hs, or_self, if_false]
  by_cases hz : (r.reduce (min q r.quantity)).quantity = 0
  · simp only [hz, if_true] at hrs ⊢
    subst hrs; rfl
  · simp only [hz, if_false] at hrs ⊢
    subst hrs
    -- the front order outlasts the incoming quantity, which is now used up
    have h0 : q - min q r.quantity = 0 := by
      rw [Order.reduce_quantity, eq_zero_iff_toNat, sub_min_toNat'] at hz
      rw [eq_zero_iff_toNat, sub_min_toNat]
      omega
    rw [h0, sweep_zero]

/-! ## The loop computes the sweep -/

theorem orders_length_next {s s' : Sweep P lt} (h : matchBody mk s = .next s') :
    s'.book.orders.length + (if 0 < s'.order.quantity then 1 else 0) <
      s.book.orders.length + (if 0 < s.order.quantity then 1 else 0) := by
  obtain ⟨best, r, rest, l, he, hq, -, ho, -, hb⟩ := matchBody_next h
  rw [orders_of_entries he, orders_afterFill hb, ho, if_pos hq]
  by_cases hz : (r.reduce (min s.order.quantity r.quantity)).quantity = 0
  · simp only [hz, if_true, List.length_append, List.length_cons]
    split <;> omega
  · have h0 : ¬ 0 < (s.order.reduce (min s.order.quantity r.quantity)).quantity := by
      rw [Order.reduce_quantity, eq_zero_iff_toNat, sub_min_toNat'] at hz
      rw [Order.reduce_quantity, UInt32.lt_iff_toNat_lt, sub_min_toNat]
      simp only [UInt32.toNat_zero]
      omega
    simp only [hz, h0, if_false, List.length_append, List.length_cons]
    omega

/-- What the rest of the loop will do does not change from round to round. -/
structure SweepInv (mk : Order P → Order P → UInt32 → Trade P) (o : Order P) (out : Swept P)
    (trades : List (Trade P)) (s : Sweep P lt) : Prop where
  order : ∃ q, s.order = o.reduce q
  trades : s.trades ++ (sweep (stopAt lt o.price) s.order.quantity s.book.orders).fills.map (fun p => mk o p.1 p.2)
    = trades
  leftover : (sweep (stopAt lt o.price) s.order.quantity s.book.orders).leftover = out.leftover
  resting : (sweep (stopAt lt o.price) s.order.quantity s.book.orders).resting = out.resting

theorem sweepInv_next (hmk : ∀ o q r f, mk (Order.reduce o q) r f = mk o r f) {side : Side} {o : Order P}
    {out : Swept P} {trades : List (Trade P)} {s s' : Sweep P lt} (hl : Levels (LevelOk side) s.book)
    (hi : SweepInv mk o out trades s) (h : matchBody mk s = .next s') : SweepInv mk o out trades s' := by
  obtain ⟨best, r, rest, l, he, hq, hlt, ho, ht, hb⟩ := matchBody_next h
  obtain ⟨q, hoq⟩ := hi.order
  have hr : r.price = best := ((hl _ _ (he ▸ List.mem_cons_self ..)).order_ok r (List.mem_cons_self ..)).2.1
  have hstop : ¬ stopAt lt o.price r := by
    rw [stopAt, hr]; rw [hoq] at hlt; exact hlt
  have hround := sweep_round (rest ++ l.flatMap Prod.snd) s'.book.orders hq hstop
    (by rw [orders_afterFill hb]; split <;> rfl)
  have hs : s.book.orders = r :: (rest ++ l.flatMap Prod.snd) := orders_of_entries he
  have hq' : s'.order.quantity = s.order.quantity - min s.order.quantity r.quantity := by rw [ho]; rfl
  refine ⟨⟨q + min s.order.quantity r.quantity, ?_⟩, ?_, ?_, ?_⟩
  · rw [ho, hoq]
    simp only [Order.reduce]
    congr 1
    grind
  · rw [← hi.trades, hs, hround, ht, hq', List.map_cons, hoq, hmk]
    simp
  · rw [← hi.leftover, hs, hround, hq']
  · rw [← hi.resting, hs, hround, hq']

theorem sweep_exit {side : Side} {o : Order P} {s : Sweep P lt} (hl : Levels (LevelOk side) s.book)
    (ho : s.order.price = o.price) (h : matchBody mk s = .exit) :
    sweep (stopAt lt o.price) s.order.quantity s.book.orders = ⟨[], s.order.quantity, s.book.orders⟩ := by
  rcases matchBody_exit h with h | h | ⟨best, orders, l, he, hlt⟩
  · rw [h, sweep_zero]
  · have : s.book.orders = [] := by simp [Book.orders, h]
    rw [this]; rfl
  · have hb := hl best orders (he ▸ List.mem_cons_self ..)
    rw [orders_of_entries he]
    cases orders with
    | nil => exact absurd rfl hb.nonempty
    | cons r rest =>
      have hr := (hb.order_ok r (List.mem_cons_self ..)).2.1
      exact sweep_stop (by rw [stopAt, hr, ← ho]; exact hlt) _

/-- **The matching loop.** On a book in shape it ends without touching an
empty level, trades and leaves what the sweep of the flattened book does, and
keeps every condition on levels that fills keep. -/
theorem matchLoop_spec (mk : Order P → Order P → UInt32 → Trade P)
    (hmk : ∀ o q r f, mk (Order.reduce o q) r f = mk o r f) {side : Side} (o : Order P)
    {b : Book P lt} (t : List (Trade P)) (hl : Levels (LevelOk side) b) :
    ∃ s', matchLoop mk o b t = some s' ∧
      s'.order = { o with quantity := (sweep (stopAt lt o.price) o.quantity b.orders).leftover } ∧
      s'.trades = t ++ (sweep (stopAt lt o.price) o.quantity b.orders).fills.map (fun p => mk o p.1 p.2) ∧
      s'.book.orders = (sweep (stopAt lt o.price) o.quantity b.orders).resting ∧
      ∀ Q, FillClosed Q → Levels Q b → Levels Q s'.book := by
  let out := sweep (stopAt lt o.price) o.quantity b.orders
  let I : Sweep P lt → Prop := fun s =>
    SweepInv mk o out (t ++ out.fills.map fun p => mk o p.1 p.2) s ∧
      ∀ Q, FillClosed Q → Levels Q b → Levels Q s.book
  have hlev : ∀ s, I s → Levels (LevelOk side) s.book := fun s hs => hs.2 _ (levelOk_closed side) hl
  have h0 : I ⟨o, b, t⟩ := ⟨⟨⟨0, by simp [Order.reduce]⟩, rfl, rfl, rfl⟩, fun _ _ h => h⟩
  have hstep : ∀ s s', I s → matchBody mk s = .next s' → I s' := fun s s' hs h =>
    ⟨sweepInv_next hmk (hlev s hs) hs.1 h, fun Q hQ hb => levels_next hQ h (hs.2 Q hQ hb)⟩
  obtain ⟨s', hrun, hI, hexit⟩ := Loop.run_total (matchBody mk) (I := I)
    (fun s => s.book.orders.length + if 0 < s.order.quantity then 1 else 0)
    (fun s hs => matchBody_ne_fault fun p l hm => (hlev s hs p l hm).nonempty)
    (fun s s' hs h => ⟨hstep s s' hs h, orders_length_next h⟩)
    (matchFuel b) ⟨o, b, t⟩ h0 (by simp only [matchFuel]; split <;> omega)
  obtain ⟨q, hoq⟩ := hI.1.order
  have hfin := sweep_exit (o := o) (hlev s' hI) (by rw [hoq]; rfl) hexit
  refine ⟨s', hrun, ?_, ?_, ?_, hI.2⟩
  · have := hI.1.leftover
    rw [hfin] at this
    rw [show (sweep (stopAt lt o.price) o.quantity b.orders).leftover = out.leftover from rfl, ← this, hoq]
    rfl
  · have := hI.1.trades
    rw [hfin] at this
    simpa using this
  · have := hI.1.resting
    rw [hfin] at this
    exact this

/-! ## Facts about the sweep -/

section
variable {stop : Order P → Prop} [DecidablePred stop]

theorem sweep_leftover_stop (q : UInt32) (rs : List (Order P)) (h : (sweep stop q rs).leftover ≠ 0) :
    ∀ r ∈ (sweep stop q rs).resting.head?, stop r := by
  induction rs generalizing q with
  | nil => simp [sweep]
  | cons r rs ih =>
    unfold sweep at h ⊢
    by_cases hs : q = 0 ∨ stop r
    · simp only [hs, if_true] at h ⊢
      simpa using hs.resolve_left h
    · simp only [hs, if_false] at h ⊢
      by_cases hz : (r.reduce (min q r.quantity)).quantity = 0
      · simp only [hz, if_true] at h ⊢
        exact ih _ h
      · simp only [hz, if_false] at h
        rw [Order.reduce_quantity, eq_zero_iff_toNat, sub_min_toNat'] at hz
        rw [ne_eq, eq_zero_iff_toNat, sub_min_toNat] at h
        omega

theorem sweep_resting_suffix (stop : Order P → Prop) [DecidablePred stop] (q : UInt32) (rs : List (Order P)) :
    ∃ pre suf f, rs = pre ++ suf ∧
      ((sweep stop q rs).resting = suf ∨ ∃ r tl, suf = r :: tl ∧ (sweep stop q rs).resting = r.reduce f :: tl) := by
  induction rs generalizing q with
  | nil => exact ⟨[], [], 0, rfl, Or.inl rfl⟩
  | cons r rs ih =>
    unfold sweep
    by_cases hs : q = 0 ∨ stop r
    · simp only [hs, if_true]
      exact ⟨[], r :: rs, 0, rfl, Or.inl rfl⟩
    · simp only [hs, if_false]
      by_cases hz : (r.reduce (min q r.quantity)).quantity = 0
      · simp only [hz, if_true]
        obtain ⟨pre, suf, f, he, h⟩ := ih (q - min q r.quantity)
        exact ⟨r :: pre, suf, f, by rw [he]; rfl, h⟩
      · simp only [hz, if_false]
        exact ⟨[], r :: rs, min q r.quantity, rfl, Or.inr ⟨r, rs, rfl, rfl⟩⟩

/-- Data that fills do not change, read off what remains, is a part of what it was. -/
theorem sweep_resting_sublist {β : Type*} (g : Order P → β) (hg : ∀ o q, g (Order.reduce o q) = g o) (q : UInt32)
    (rs : List (Order P)) : ((sweep stop q rs).resting.map g).Sublist (rs.map g) := by
  obtain ⟨pre, suf, f, he, h | ⟨r, tl, hs, h⟩⟩ := sweep_resting_suffix stop q rs
  · rw [h, he, List.map_append]; exact List.sublist_append_right ..
  · rw [h, he, hs, List.map_append, List.map_cons, List.map_cons, hg]
    exact List.sublist_append_right ..

end

end

end Playground.MatchingEngine
