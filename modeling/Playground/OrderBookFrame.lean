import Playground.OrderLedger

/-!
# Adding an order and cancelling it

The two calls cancel out, whatever calls on other ids are made in between. The
book that is left is compared with the one of the run without the two calls up
to what cannot agree: timestamps, which are clock readings, and addresses of
list nodes. A lookup entry is therefore compared by the position in its level
of the node that it points at.
-/

namespace Playground.OrderBook

section
variable {P : Type}

def Order.untimed (o : Order P) : Order P := { o with timestamp := 0 }

def Call.id : Call P → UInt64
  | .addOrder id _ _ _ _ => id
  | .cancelOrder id => id

def Call.untimed : Call P → Call P
  | .addOrder id side price qty _ => .addOrder id side price qty 0
  | .cancelOrder id => .cancelOrder id

/-! ## The ledger without an order -/

/-- The same orders, but for their timestamps. -/
def Alike (os os' : List (Order P)) : Prop := os.map Order.untimed = os'.map Order.untimed

theorem Alike.filter {os os' : List (Order P)} (h : Alike os os') (p : Order P → Bool)
    (hp : ∀ o, p o.untimed = p o) : Alike (os.filter p) (os'.filter p) := by
  have hcomm : ∀ l : List (Order P), (l.filter p).map Order.untimed = (l.map Order.untimed).filter p := by
    intro l
    rw [List.filter_map]
    congr 1
    exact List.filter_congr fun o _ => (hp o).symm
  rw [Alike, hcomm, hcomm, h]

theorem Alike.live {os os' : List (Order P)} (h : Alike os os') (id : UInt64) : live os id = live os' id := by
  have hmap : ∀ l : List (Order P), OrderBook.live l id = OrderBook.live (l.map Order.untimed) id := by
    intro l
    rw [OrderBook.live, OrderBook.live, List.any_map]
    rfl
  rw [hmap os, hmap os']
  exact congrArg (OrderBook.live · id) h

theorem live_filter {os : List (Order P)} {id id' : UInt64} (hne : id' ≠ id) :
    live (os.filter fun o => o.id ≠ id) id' = live os id' := by
  rw [Bool.eq_iff_iff, live_iff, live_iff]
  constructor
  · rintro ⟨o, ho, hid⟩
    exact ⟨o, List.mem_of_mem_filter ho, hid⟩
  · rintro ⟨o, ho, rfl⟩
    exact ⟨o, by simp [ho, hne], rfl⟩

theorem ledgerStep_without {os os' os₁ : List (Order P)} {id : UInt64} {c c' : Call P} {r : Option Bool}
    (h : Alike (os.filter fun o => o.id ≠ id) os') (hid : c.id ≠ id) (hc : c.untimed = c'.untimed)
    (hs : ledgerStep os c = some (os₁, r)) :
    ∃ os₁', ledgerStep os' c' = some (os₁', r) ∧ Alike (os₁.filter fun o => o.id ≠ id) os₁' := by
  have hlive : ∀ id', id' ≠ id → live os id' = live os' id' := by
    intro id' hne
    rw [← h.live, live_filter hne]
  cases c with
  | addOrder idc side price qty now =>
    change idc ≠ id at hid
    cases c' with
    | cancelOrder _ => cases hc
    | addOrder idc' side' price' qty' now' =>
      obtain ⟨rfl, rfl, rfl, rfl, -⟩ := Call.addOrder.inj hc
      simp only [ledgerStep] at hs
      split at hs
      · cases hs
      · rename_i hno
        obtain ⟨rfl, rfl⟩ := Prod.mk.inj (Option.some.inj hs)
        rw [hlive _ hid] at hno
        refine ⟨_, by rw [ledgerStep, if_neg hno], ?_⟩
        rw [Alike, List.filter_append, List.map_append, List.map_append, h]
        simp [hid, Order.untimed]
  | cancelOrder idc =>
    change idc ≠ id at hid
    cases c' with
    | addOrder _ _ _ _ _ => cases hc
    | cancelOrder idc' =>
      obtain rfl := Call.cancelOrder.inj hc
      obtain ⟨rfl, rfl⟩ := Prod.mk.inj (Option.some.inj hs)
      refine ⟨_, by rw [ledgerStep, hlive _ hid], ?_⟩
      rw [List.filter_comm]
      exact h.filter (fun o => o.id ≠ idc) fun o => rfl

theorem execFrom_without {id : UInt64} {mid mid' : List (Call P)} (hid : ∀ c ∈ mid, c.id ≠ id)
    (hmid : mid.map Call.untimed = mid'.map Call.untimed) {os os' os₁ : List (Order P)}
    (h : Alike (os.filter fun o => o.id ≠ id) os') (hx : (ledger P).execFrom os mid = some os₁) :
    ∃ os₁', (ledger P).execFrom os' mid' = some os₁' ∧ Alike (os₁.filter fun o => o.id ≠ id) os₁' := by
  induction mid generalizing mid' os os' with
  | nil =>
    obtain rfl := List.map_eq_nil_iff.mp hmid.symm
    obtain rfl := Option.some.inj hx
    exact ⟨os', rfl, h⟩
  | cons c mid ih =>
    obtain ⟨c', mid', rfl, hc, hmid⟩ := List.map_eq_cons_iff.mp hmid.symm
    rw [Machine.execFrom_cons] at hx
    obtain ⟨⟨os₂, r⟩, hs, hx⟩ := Option.bind_eq_some_iff.mp hx
    obtain ⟨os₂', hs', h₂⟩ := ledgerStep_without h (hid c (List.mem_cons_self ..)) hc.symm hs
    obtain ⟨os₁', hx', h₁⟩ := ih (fun c hc => hid c (List.mem_cons_of_mem _ hc)) hmid.symm h₂ hx
    refine ⟨os₁', ?_, h₁⟩
    rw [Machine.execFrom_cons, show (ledger P).step os' c' = _ from hs', Option.bind_some]
    exact hx'

/-! ## Books that show the same ledger -/

variable [LinearOrder P]

/-- The levels of a side without addresses and timestamps. -/
def Book.shown (b : Book P) (side : Side) : OrdMap P (List (Order P)) (· < ·) :=
  (b.book side).map (RelEmbedding.refl _) (List.map fun n => n.order.untimed)

/-- What the lookup entry of `id` leads to: a level, and a position in it. -/
def Book.target (b : Book P) (id : UInt64) : Option (Side × P × Option Nat) :=
  (b.orderLookup id).map fun loc =>
    (loc.side, loc.price, (b.level loc.side loc.price).findIdx? fun n => n.addr = loc.it)

structure SameBook (b b' : Book P) : Prop where
  levels : ∀ side, b.shown side = b'.shown side
  orderLookup : ∀ id, b.target id = b'.target id

theorem Shows.find?_shown {b : Book P} {os : List (Order P)} (h : Shows b os) (side : Side) (p : P) :
    (b.shown side).find? p =
      if queue os side p = [] then none else some ((queue os side p).map Order.untimed) := by
  have hmap : (b.shown side).find? p = ((b.book side).find? p).map (List.map fun n => n.order.untimed) :=
    OrdMap.find?_map (RelEmbedding.refl _) _ _ p
  rw [hmap, ← h.level]
  simp only [List.map_eq_nil_iff, List.map_map]
  unfold Book.level
  cases hf : (b.book side).find? p with
  | none => rfl
  | some level =>
    have hne : level ≠ [] := h.tidy side (p, level) (OrdMap.mem_entries.mpr hf)
    rw [Option.getD_some, if_neg hne]
    rfl

omit [LinearOrder P] in
theorem findIdx?_congr {l : OrderList P} {p q : Node P → Bool} (h : ∀ n ∈ l, p n = q n) :
    l.findIdx? p = l.findIdx? q := by
  induction l with
  | nil => rfl
  | cons n l ih =>
    rw [List.findIdx?_cons, List.findIdx?_cons, h n (List.mem_cons_self ..),
      ih fun m hm => h m (List.mem_cons_of_mem _ hm)]

theorem Shows.target_of_live {b : Book P} {os : List (Order P)} (h : Shows b os) {o : Order P} (ho : o ∈ os) :
    b.target o.id = some (o.side, o.price, (queue os o.side o.price).findIdx? fun x => x.id = o.id) := by
  obtain ⟨n, ⟨side, price, hn⟩, rfl⟩ := h.mem_live.mp ho
  obtain ⟨rfl, rfl⟩ := h.inv.filed hn
  have hat : (fun m : Node P => decide (m.order.id = n.order.id)) =
      (fun x => decide (x.id = n.order.id)) ∘ Node.order := rfl
  rw [Book.target, h.indexed _ _ n hn, Option.map_some, ← h.level, List.findIdx?_map, ← hat]
  have hidx : ∀ m ∈ b.level n.order.side n.order.price,
      decide (m.addr = n.addr) = decide (m.order.id = n.order.id) := by
    intro m hm
    rw [decide_eq_decide]
    constructor
    · intro haddr
      rw [h.inv.addr hm hn haddr]
    · intro hid
      rw [h.indexed.eq_of_id h.inv ⟨_, _, hm⟩ ⟨_, _, hn⟩ hid]
  exact congrArg (fun i => some (_, _, i)) (findIdx?_congr hidx)

theorem Shows.target_of_not_live {b : Book P} {os : List (Order P)} (h : Shows b os) {id : UInt64}
    (hid : live os id = false) : b.target id = none := by
  rw [Book.target, Option.map_eq_none_iff, Option.eq_none_iff_forall_ne_some]
  intro loc hl
  obtain ⟨n, hn, _, heq⟩ := h.inv.target hl
  rw [h.live_iff.mpr ⟨n, ⟨_, _, hn⟩, heq⟩] at hid
  cases hid

/-- A book is determined by its ledger, up to timestamps and addresses. -/
theorem Shows.sameBook {b b' : Book P} {os os' : List (Order P)} (h : Shows b os) (h' : Shows b' os')
    (ha : Alike os os') : SameBook b b' := by
  have hqueue : ∀ side p, Alike (queue os side p) (queue os' side p) := fun side p => ha.filter _ fun o => rfl
  constructor
  · intro side
    apply OrdMap.eq_of_entries
    apply OrdMap.ext_find?
    intro p
    have hq := hqueue side p
    have hnil : queue os side p = [] ↔ queue os' side p = [] := by
      rw [← List.map_eq_nil_iff (f := Order.untimed), hq, List.map_eq_nil_iff]
    rw [h.find?_shown, h'.find?_shown, hq]
    simp only [hnil]
  · intro id
    cases hid : live os id with
    | false =>
      have hid' := hid
      rw [ha.live] at hid'
      rw [h.target_of_not_live hid, h'.target_of_not_live hid']
    | true =>
      obtain ⟨o, ho, rfl⟩ := OrderBook.live_iff.mp hid
      obtain ⟨o', ho', heq⟩ : ∃ o' ∈ os', o'.untimed = o.untimed := by
        rw [← List.mem_map, ← ha]
        exact List.mem_map_of_mem ho
      obtain ⟨hi, hs, hp, -, -⟩ := Order.mk.inj heq
      have htarget := h'.target_of_live ho'
      rw [hi, hs, hp] at htarget
      rw [h.target_of_live ho, htarget]
      have hmap : ∀ l : List (Order P), (l.findIdx? fun x => x.id = o.id) =
          (l.map Order.untimed).findIdx? fun x => x.id = o.id := by
        intro l
        rw [List.findIdx?_map]
        rfl
      rw [hmap (queue os _ _), hmap (queue os' _ _), hqueue]

/-! ## The two runs -/

/-- **An order that is added and cancelled leaves no trace.** The calls in
between are made at other times in the run without the two calls. -/
theorem cancelOrder_addOrder (cs mid mid' : List (Call P)) (id : UInt64) (side : Side) (price : P) (qty : UInt32)
    (now : Int64) {os : List (Order P)}
    (h : (ledger P).exec (cs ++ .addOrder id side price qty now :: mid) = some os)
    (hid : ∀ c ∈ mid, c.id ≠ id) (hmid : mid.map Call.untimed = mid'.map Call.untimed) :
    ∃ b b', (orderBook P).exec (cs ++ .addOrder id side price qty now :: mid ++ [.cancelOrder id]) = some b ∧
      (orderBook P).exec (cs ++ mid') = some b' ∧ SameBook b b' := by
  have hcancel : (ledger P).exec (cs ++ .addOrder id side price qty now :: mid ++ [.cancelOrder id]) =
      some (os.filter fun o => o.id ≠ id) := Machine.exec_snoc_of _ h rfl
  rw [Machine.exec_append] at h
  obtain ⟨os₀, h₀, hx⟩ := Option.bind_eq_some_iff.mp h
  rw [Machine.execFrom_cons] at hx
  obtain ⟨⟨os₁, r⟩, hs, hx⟩ := Option.bind_eq_some_iff.mp hx
  change (if live os₀ id then none else some _) = _ at hs
  split at hs
  · cases hs
  · rename_i hno
    obtain ⟨rfl, rfl⟩ := Prod.mk.inj (Option.some.inj hs)
    have hwithout : (os₀ ++ [(⟨id, side, price, qty, now⟩ : Order P)]).filter (fun o => o.id ≠ id) = os₀ := by
      rw [List.filter_append, List.filter_eq_self.mpr]
      · simp
      · intro o ho
        rw [decide_eq_true_eq]
        exact fun heq => hno (live_iff.mpr ⟨o, ho, heq⟩)
    have halike : Alike ((os₀ ++ [(⟨id, side, price, qty, now⟩ : Order P)]).filter fun o => o.id ≠ id) os₀ :=
      congrArg _ hwithout
    obtain ⟨os', hx', ha⟩ := execFrom_without hid hmid halike hx
    have hother : (ledger P).exec (cs ++ mid') = some os' := by
      rw [Machine.exec_append, h₀]
      exact hx'
    obtain ⟨b, he, hb⟩ := (orderBook_refines P).exec hcancel
    obtain ⟨b', he', hb'⟩ := (orderBook_refines P).exec hother
    exact ⟨b, b', he, he', hb.sameBook hb' ha⟩

end

/-- The order 2 stands between two others of its level when it is cancelled. -/
theorem cancelOrder_addOrder_between : ∃ b b',
    (orderBook ℤ).exec [.addOrder 1 .Buy 100 50 0, .addOrder 2 .Buy 100 30 1, .addOrder 3 .Buy 100 20 2,
      .cancelOrder 2] = some b ∧
    (orderBook ℤ).exec [.addOrder 1 .Buy 100 50 0, .addOrder 3 .Buy 100 20 1] = some b' ∧ SameBook b b' :=
  cancelOrder_addOrder [.addOrder 1 .Buy 100 50 0] [.addOrder 3 .Buy 100 20 2] [.addOrder 3 .Buy 100 20 1]
    2 .Buy 100 30 1 rfl (by decide) rfl

end Playground.OrderBook
