import Mathlib.Data.List.Basic
import Playground.ModernObserverSound
import Playground.ReentrantEmit

/-!
# Which slots an emission reaches

The vector is ordered by id, and slots only move to the front. So no slot is
called twice, and a slot that should be called is missed when it moves to a
place that the loop has passed. `Matches` is the link to the signal whose ids
have 64 bits.
-/

namespace Playground.ReentrantEmit

section
variable {S : Type} {growth : Nat → Nat} {s s' : Signal S}

def ids (s : Signal S) : List Nat := s.slots.map Prod.fst

/-- What `emit` must do for the slots `start`: from the calls that have been made, each next one comes after them
and passes over no slot of `start` that is connected, and in the end there is none that was not called. -/
def Delivers (start : List Nat) : List Nat → List (Event S) → Signal S → Prop
  | calls, [], s => ∀ id ∈ start, id ∈ ids s → id ∈ calls
  | calls, e :: events, s => (∀ c ∈ calls, c < e.id) ∧ (∀ id ∈ start, id ∈ ids e.signal → id < e.id → id ∈ calls) ∧
    Delivers start (calls ++ [e.id]) events s

/-- The loop can go on at position `i + 1` after the call of the slot `x` at position `i`: the vector is where it
was, has a slot there, and the slots in front of it that were connected when `emit` began, with ids below `first`,
do not come after `x`. -/
structure Steady (first x i : Nat) (r : Signal S × Bool) : Prop where
  inPlace : r.2 = false
  inside : i + 1 < r.1.slots.length
  passed : ∀ id ∈ (ids r.1).take (i + 1), id < first → id ≤ x

/-- Every call but the last one leaves the vector steady. -/
def Undisturbed (growth : Nat → Nat) (acts : Nat → List (Act S)) (first : Nat) : Nat → Nat → Signal S → Prop
  | 0, _, _ => True
  | 1, _, _ => True
  | k + 2, i, s => ∀ x, (ids s)[i]? = some x → Steady first x i (perform growth s (acts i)) ∧
    Undisturbed growth acts first (k + 1) (i + 1) (perform growth s (acts i)).1

/-! ## Ordered ids -/

structure Ordered (s : Signal S) : Prop where
  increasing : (ids s).Pairwise (· < ·)
  lt : ∀ id ∈ ids s, id < s.nextId

/-- `s'` comes after `s`: a slot has moved to the front, if at all, or is new. -/
structure Later (s s' : Signal S) : Prop where
  ordered : Ordered s'
  next : s.nextId ≤ s'.nextId
  drop : ∀ i, ∀ id ∈ (ids s').drop i, id ∈ (ids s).drop i ∨ s.nextId ≤ id

theorem Later.refl (h : Ordered s) : Later s s := ⟨h, Nat.le_refl _, fun _ _ hid => .inl hid⟩

theorem Later.trans {s'' : Signal S} (h : Later s s') (h' : Later s' s'') : Later s s'' where
  ordered := h'.ordered
  next := Nat.le_trans h.next h'.next
  drop := by
    intro i id hid
    rcases h'.drop i id hid with hid | hid
    · exact h.drop i id hid
    · exact .inr (Nat.le_trans h.next hid)

theorem Later.mem (h : Later s s') {id : Nat} (hid : id ∈ ids s') (hlt : id < s.nextId) : id ∈ ids s :=
  (h.drop 0 id hid).resolve_right (Nat.not_le.mpr hlt)

theorem mem_drop_of_filter {α : Type} {p : α → Bool} {a : α} {l : List α} {i : Nat} (h : a ∈ (l.filter p).drop i) :
    a ∈ l.drop i := by
  induction l generalizing i with
  | nil => simp at h
  | cons b l ih =>
    rw [List.filter_cons] at h
    cases i with
    | zero =>
      rw [List.drop_zero] at h ⊢
      split at h
      · exact List.mem_cons.mpr ((List.mem_cons.mp h).imp_right List.mem_of_mem_filter)
      · exact List.mem_cons_of_mem b (List.mem_of_mem_filter h)
    | succ i =>
      rw [List.drop_succ_cons]
      split at h
      · exact ih h
      · exact List.drop_subset_drop_left l (Nat.le_succ i) (ih h)

theorem ids_disconnect (s : Signal S) (id : Nat) : ids (disconnect s id) = (ids s).filter (· ≠ id) := by
  simp [ids, disconnect, List.filter_map]
  rfl

theorem later_disconnect (h : Ordered s) (id : Nat) : Later s (disconnect s id) := by
  refine ⟨⟨?_, ?_⟩, Nat.le_refl _, ?_⟩
  · rw [ids_disconnect]
    exact h.increasing.filter _
  · intro j hj
    rw [ids_disconnect] at hj
    exact h.lt j (List.mem_of_mem_filter hj)
  · intro i j hj
    rw [ids_disconnect] at hj
    exact .inl (mem_drop_of_filter hj)

theorem connect_slots (growth : Nat → Nat) (s : Signal S) (slot : S) :
    ids (connect growth s slot).1 = ids s ++ [s.nextId] ∧ (connect growth s slot).1.nextId = s.nextId + 1 := by
  unfold connect
  split <;> simp [ids]

theorem later_connect (h : Ordered s) (slot : S) : Later s (connect growth s slot).1 := by
  obtain ⟨hids, hnext⟩ := connect_slots growth s slot
  refine ⟨⟨?_, ?_⟩, by omega, ?_⟩
  · rw [hids, List.pairwise_append]
    refine ⟨h.increasing, List.pairwise_singleton .., fun a ha b hb => ?_⟩
    rw [List.mem_singleton.mp hb]
    exact h.lt a ha
  · intro j hj
    rw [hids] at hj
    rw [hnext]
    rcases List.mem_append.mp hj with hj | hj
    · exact Nat.lt_succ_of_lt (h.lt j hj)
    · rw [List.mem_singleton.mp hj]
      exact Nat.lt_succ_self _
  · intro i j hj
    rw [hids, List.drop_append] at hj
    rcases List.mem_append.mp hj with hj | hj
    · exact .inl hj
    · exact .inr (Nat.le_of_eq (List.mem_singleton.mp (List.mem_of_mem_drop hj)).symm)

theorem later_perform (growth : Nat → Nat) (h : Ordered s) (acts : List (Act S)) :
    Later s (perform growth s acts).1 := by
  have hfold : ∀ r : Signal S × Bool, Later s r.1 → Later s (acts.foldl (act growth) r).1 := by
    induction acts with
    | nil => exact fun _ hr => hr
    | cons a acts ih =>
      intro r hr
      apply ih
      apply hr.trans
      cases a with
      | connect slot => exact later_connect hr.ordered slot
      | disconnect id => exact later_disconnect hr.ordered id
  exact hfold (s, false) (Later.refl h)

/-- How many slots are connected. -/
def connects : List (Act S) → Nat
  | [] => 0
  | .connect _ :: acts => connects acts + 1
  | .disconnect _ :: acts => connects acts

/-- An id that has been given out, the next one being `next`, is disconnected. -/
def Drops : Nat → List (Act S) → Nat → Prop
  | _, [], _ => False
  | next, .connect _ :: acts, id => Drops (next + 1) acts id
  | next, .disconnect j :: acts, id => id = j ∧ id < next ∨ Drops next acts id

/-- Connected are, after the acts of a call, the slots from before it and the new ones, less those that it
disconnects. -/
theorem mem_ids_perform (h : Ordered s) (acts : List (Act S)) (id : Nat) : id ∈ ids (perform growth s acts).1 ↔
    (id ∈ ids s ∨ s.nextId ≤ id ∧ id < s.nextId + connects acts) ∧ ¬ Drops s.nextId acts id := by
  have hfold : ∀ r : Signal S × Bool, Ordered r.1 → (id ∈ ids (acts.foldl (act growth) r).1 ↔
      (id ∈ ids r.1 ∨ r.1.nextId ≤ id ∧ id < r.1.nextId + connects acts) ∧ ¬ Drops r.1.nextId acts id) := by
    induction acts with
    | nil =>
      intro r _
      simp only [List.foldl_nil, connects, Drops, Nat.add_zero, not_false_eq_true, and_true]
      exact ⟨.inl, fun hid => hid.resolve_right fun hnew => absurd hnew.2 (Nat.not_lt.mpr hnew.1)⟩
    | cons a acts ih =>
      intro r hr
      cases a with
      | connect slot =>
        obtain ⟨hids, hnext⟩ := connect_slots growth r.1 slot
        have hrest := ih (act growth r (.connect slot)) (later_connect hr slot).ordered
        rw [show (act growth r (.connect slot)).1 = (connect growth r.1 slot).1 from rfl, hids, hnext] at hrest
        rw [List.foldl_cons, hrest, List.mem_append, List.mem_singleton, Drops, connects]
        refine and_congr_left fun _ => ?_
        rw [or_assoc]
        refine or_congr_right ?_
        omega
      | disconnect j =>
        have hlt := hr.lt id
        have hrest := ih (act growth r (.disconnect j)) (later_disconnect hr j).ordered
        rw [show (act growth r (.disconnect j)).1 = disconnect r.1 j from rfl, ids_disconnect, List.mem_filter,
          show (disconnect r.1 j).nextId = r.1.nextId from rfl, decide_eq_true_eq] at hrest
        rw [List.foldl_cons, hrest, Drops, connects]
        grind
  exact hfold (s, false) h

/-! ## Ids of 64 bits -/

/-- `o` is the signal with its ids as the `uint64_t`s they are. -/
structure Matches (s : Signal S) (o : ModernObserver.Signal S) : Prop where
  slots : o.slots = s.slots.map fun p => (UInt64.ofNat p.1, p.2)
  nextId : o.nextId = UInt64.ofNat s.nextId

theorem Matches.connect {o : ModernObserver.Signal S} (h : Matches s o) (slot : S) :
    Matches (connect growth s slot).1 (o.connect slot).1 := by
  have hslots : o.slots ++ [(o.nextId, slot)] =
      (s.slots ++ [(s.nextId, slot)]).map fun p => (UInt64.ofNat p.1, p.2) := by
    rw [List.map_append, h.slots, h.nextId]
    rfl
  have hnext : o.nextId + 1 = UInt64.ofNat (s.nextId + 1) := by
    rw [h.nextId]
    exact (UInt64.ofNat_add s.nextId 1).symm
  unfold ReentrantEmit.connect
  split
  · exact ⟨hslots, hnext⟩
  · exact ⟨hslots, hnext⟩

/-- While no id has been given out twice, the two erase the same slots. -/
theorem Matches.disconnect {o : ModernObserver.Signal S} (h : Matches s o) (hs : Ordered s)
    (hnext : s.nextId ≤ 2 ^ 64) {id : Nat} (hid : id < 2 ^ 64) :
    Matches (disconnect s id) (o.disconnect (some (UInt64.ofNat id))) := by
  refine ⟨?_, h.nextId⟩
  show o.slots.filter _ = (s.slots.filter _).map _
  rw [h.slots, List.filter_map]
  refine congrArg (List.map _) (List.filter_congr fun p hp => ?_)
  have hlt := hs.lt p.1 (List.mem_map_of_mem hp)
  have hinj : UInt64.ofNat p.1 = UInt64.ofNat id ↔ p.1 = id :=
    ⟨ModernObserver.ofNat_inj (by omega) hid, congrArg UInt64.ofNat⟩
  simp [hinj]

/-! ## The loop -/

theorem getElem?_ids (s : Signal S) (i : Nat) : (ids s)[i]? = (s.slots[i]?).map Prod.fst := by simp [ids]

theorem eq_take_append {l : List Nat} {x i : Nat} (h : l[i]? = some x) : l = l.take i ++ x :: l.drop (i + 1) := by
  obtain ⟨hi, rfl⟩ := List.getElem?_eq_some_iff.mp h
  rw [List.getElem_cons_drop, List.take_append_drop]

theorem mem_drop_of_getElem? {l : List Nat} {x i : Nat} (h : l[i]? = some x) : x ∈ l.drop i := by
  obtain ⟨hi, rfl⟩ := List.getElem?_eq_some_iff.mp h
  rw [← List.getElem_cons_drop hi]
  exact List.mem_cons_self ..

theorem lt_of_mem_take {l : List Nat} {x i id : Nat} (hl : l.Pairwise (· < ·)) (hx : l[i]? = some x)
    (hid : id ∈ l.take i) : id < x := by
  rw [eq_take_append hx, List.pairwise_append] at hl
  exact hl.2.2 id hid x (List.mem_cons_self ..)

theorem lt_of_mem_drop {l : List Nat} {x i id : Nat} (hl : l.Pairwise (· < ·)) (hx : l[i]? = some x)
    (hid : id ∈ l.drop (i + 1)) : x < id := by
  rw [eq_take_append hx, List.pairwise_append, List.pairwise_cons] at hl
  exact hl.2.1.1 id hid

theorem mem_take_of_lt {l : List Nat} {x i id : Nat} (hl : l.Pairwise (· < ·)) (hx : l[i]? = some x) (hid : id ∈ l)
    (hlt : id < x) : id ∈ l.take i := by
  rw [eq_take_append hx, List.mem_append, List.mem_cons] at hid
  rcases hid with hid | rfl | hid
  · exact hid
  · omega
  · have := lt_of_mem_drop hl hx hid
    omega

/-- Before the round at position `i`, when `k` rounds are left: of the slots in `start`, the ones in front of `i`
have been called, and no call has gone beyond the ones from `i` on. -/
structure Inv (start : List Nat) (first k i : Nat) (s : Signal S) (calls : List Nat) : Prop where
  ordered : Ordered s
  next : first ≤ s.nextId
  start_lt : ∀ id ∈ start, id < first
  old : ∀ id ∈ ids s, id < first → id ∈ start
  passed : ∀ id ∈ (ids s).take i, id < first → id ∈ calls
  behind : ∀ c ∈ calls, ∀ id ∈ (ids s).drop i, c < id
  made : ∀ c ∈ calls, c < s.nextId
  tail : ∀ id ∈ (ids s).drop (i + k), first ≤ id
  inside : 0 < k → i < s.slots.length

variable {start calls : List Nat} {first k i x : Nat}

theorem Inv.made_snoc (h : Inv start first k i s calls) (hx : (ids s)[i]? = some x) :
    ∀ c ∈ calls ++ [x], c < s.nextId := by
  intro c hc
  rcases List.mem_append.mp hc with hc | hc
  · exact h.made c hc
  · rw [List.mem_singleton.mp hc]
    exact h.ordered.lt x (List.mem_of_getElem? hx)

theorem Inv.next_round (h : Inv start first (k + 1) i s calls) (hx : (ids s)[i]? = some x) (hs : Later s s')
    (hpassed : ∀ id ∈ (ids s').take (i + 1), id < first → id ≤ x) (hin : 0 < k → i + 1 < s'.slots.length) :
    Inv start first k (i + 1) s' (calls ++ [x]) where
  ordered := hs.ordered
  next := Nat.le_trans h.next hs.next
  start_lt := h.start_lt
  old id hid hlt := h.old id (hs.mem hid (Nat.lt_of_lt_of_le hlt h.next)) hlt
  passed := by
    intro id hid hlt
    have hids := hs.mem (List.mem_of_mem_take hid) (Nat.lt_of_lt_of_le hlt h.next)
    rcases Nat.eq_or_lt_of_le (hpassed id hid hlt) with rfl | hidx
    · exact List.mem_append_right calls (List.mem_singleton_self _)
    · exact List.mem_append_left [x] (h.passed id (mem_take_of_lt h.ordered.increasing hx hids hidx) hlt)
  behind := by
    intro c hc id hid
    rcases hs.drop (i + 1) id hid with hid | hid
    · rcases List.mem_append.mp hc with hc | hc
      · exact h.behind c hc id (List.drop_subset_drop_left _ (Nat.le_succ i) hid)
      · rw [List.mem_singleton.mp hc]
        exact lt_of_mem_drop h.ordered.increasing hx hid
    · exact Nat.lt_of_lt_of_le (h.made_snoc hx c hc) hid
  made c hc := Nat.lt_of_lt_of_le (h.made_snoc hx c hc) hs.next
  tail := by
    intro id hid
    rw [Nat.add_assoc, Nat.add_comm 1 k] at hid
    exact (hs.drop _ id hid).elim (h.tail id) (Nat.le_trans h.next)
  inside := hin

theorem Inv.called (h : Inv start first k i s calls) (hx : (ids s)[i]? = some x) :
    (∀ c ∈ calls, c < x) ∧ ∀ id ∈ start, id ∈ ids s → id < x → id ∈ calls := by
  constructor
  · exact fun c hc => h.behind c hc x (mem_drop_of_getElem? hx)
  · intro id hstart hids hlt
    exact h.passed id (mem_take_of_lt h.ordered.increasing hx hids hlt) (h.start_lt id hstart)

theorem Inv.done (h : Inv start first 0 i s calls) : Delivers start calls ([] : List (Event S)) s := by
  intro id hstart hids
  have hlt := h.start_lt id hstart
  rw [← List.take_append_drop i (ids s)] at hids
  rcases List.mem_append.mp hids with hids | hids
  · exact h.passed id hids hlt
  · exact absurd (h.tail id hids) (Nat.not_le.mpr hlt)

/-- A round reads a slot of a vector that has not moved, and the other rounds go on from what its call leaves. -/
theorem emitFrom_succ {acts : Nat → List (Act S)} {r : Signal S × Bool} {events : List (Event S)}
    {final : Signal S} :
    emitFrom growth acts (k + 1) i r = some (events, final) ↔ r.2 = false ∧ ∃ x rest, (ids r.1)[i]? = some x ∧
      emitFrom growth acts k (i + 1) (perform growth r.1 (acts i)) = some (rest, final) ∧
        ⟨r.1, x⟩ :: rest = events := by
  obtain ⟨s, moved⟩ := r
  cases moved with
  | true => simp [emitFrom]
  | false =>
    simp only [emitFrom, getElem?_ids, Bool.false_eq_true, if_false, true_and]
    cases hp : s.slots[i]? with
    | none => simp
    | some p =>
      cases he : emitFrom growth acts k (i + 1) (perform growth s (acts i)) with
      | none => simp
      | some q => simp [Prod.ext_iff, and_comm]

def Meets (growth : Nat → Nat) (acts : Nat → List (Act S)) (start calls : List Nat) (k i : Nat)
    (r : Signal S × Bool) :
    Prop :=
  ∃ events final, emitFrom growth acts k i r = some (events, final) ∧ Delivers start calls events final

theorem Inv.meets_succ (h : Inv start first (k + 1) i s calls) (hx : (ids s)[i]? = some x)
    (acts : Nat → List (Act S)) :
    Meets growth acts start calls (k + 1) i (s, false) ↔
      Meets growth acts start (calls ++ [x]) k (i + 1) (perform growth s (acts i)) := by
  constructor
  · rintro ⟨events, final, he, hd⟩
    obtain ⟨-, y, rest, hy, hrest, rfl⟩ := emitFrom_succ.mp he
    obtain rfl : x = y := Option.some.inj (hx.symm.trans hy)
    exact ⟨rest, final, hrest, hd.2.2⟩
  · rintro ⟨rest, final, he, hd⟩
    exact ⟨⟨s, x⟩ :: rest, final, emitFrom_succ.mpr ⟨rfl, x, rest, hx, he, rfl⟩, (h.called hx).1,
      (h.called hx).2, hd⟩

theorem Inv.steady (h : Inv start first (k + 2) i s calls) (hx : (ids s)[i]? = some x) {r : Signal S × Bool}
    (hs : Later s r.1) {acts : Nat → List (Act S)} (hm : Meets growth acts start (calls ++ [x]) (k + 1) (i + 1) r) :
    Steady first x i r := by
  obtain ⟨events, final, he, hd⟩ := hm
  obtain ⟨hplace, y, rest, hy, -, rfl⟩ := emitFrom_succ.mp he
  refine ⟨hplace, ?_, ?_⟩
  · have hlt := (List.getElem?_eq_some_iff.mp hy).1
    simpa [ids] using hlt
  · intro id hmem hlt
    have hids := List.mem_of_mem_take hmem
    have hstart := h.old id (hs.mem hids (Nat.lt_of_lt_of_le hlt h.next)) hlt
    have hbefore := lt_of_mem_take hs.ordered.increasing hy hmem
    rcases List.mem_append.mp (hd.2.1 id hstart hids hbefore) with hc | hc
    · exact Nat.le_of_lt (h.behind id hc x (mem_drop_of_getElem? hx))
    · exact Nat.le_of_eq (List.mem_singleton.mp hc)

/-- After the last call no slot of `start` is left to be called, wherever the slots are. -/
theorem Inv.last_round (h : Inv start first 1 i s calls) (hx : (ids s)[i]? = some x) (hs : Later s s') :
    Inv start first 0 (i + 1) s' (calls ++ [x]) := by
  apply h.next_round hx hs
  · intro id hid hlt
    have hids := hs.mem (List.mem_of_mem_take hid) (Nat.lt_of_lt_of_le hlt h.next)
    rw [← List.take_append_drop (i + 1) (ids s)] at hids
    rcases List.mem_append.mp hids with hids | hids
    · rw [List.take_add_one, hx, List.mem_append] at hids
      rcases hids with hids | hids
      · exact Nat.le_of_lt (lt_of_mem_take h.ordered.increasing hx hids)
      · exact Nat.le_of_eq (List.mem_singleton.mp hids)
    · exact absurd (h.tail id hids) (Nat.not_le.mpr hlt)
  · exact fun h0 => absurd h0 (Nat.lt_irrefl 0)

theorem Inv.meets_iff (h : Inv start first k i s calls) (acts : Nat → List (Act S)) :
    Meets growth acts start calls k i (s, false) ↔ Undisturbed growth acts first k i s := by
  induction k generalizing i s calls with
  | zero => exact ⟨fun _ => trivial, fun _ => ⟨[], s, rfl, h.done⟩⟩
  | succ k ih =>
    obtain ⟨x, hx⟩ : ∃ x, (ids s)[i]? = some x := by
      have hi : i < (ids s).length := by simpa [ids] using h.inside k.succ_pos
      exact ⟨_, List.getElem?_eq_getElem hi⟩
    have hs := later_perform growth h.ordered (acts i)
    rw [h.meets_succ hx]
    cases k with
    | zero => exact ⟨fun _ => trivial, fun _ => ⟨[], _, rfl, (h.last_round hx hs).done⟩⟩
    | succ k =>
      have hgo : Steady first x i (perform growth s (acts i)) →
          (Meets growth acts start (calls ++ [x]) (k + 1) (i + 1) (perform growth s (acts i)) ↔
            Undisturbed growth acts first (k + 1) (i + 1) (perform growth s (acts i)).1) := by
        intro hst
        rw [← ih (h.next_round hx hs hst.passed fun _ => hst.inside), ← hst.inPlace]
      constructor
      · intro hm y hy
        obtain rfl : x = y := Option.some.inj (hx.symm.trans hy)
        have hst := h.steady hx hs hm
        exact ⟨hst, (hgo hst).mp hm⟩
      · intro hu
        obtain ⟨hst, hrest⟩ := hu x hx
        exact (hgo hst).mpr hrest

end

/-! ## Every run -/

section
variable {S : Type}

theorem Ordered.inv {s : Signal S} (h : Ordered s) : Inv (ids s) s.nextId s.slots.length 0 s [] where
  ordered := h
  next := Nat.le_refl _
  start_lt := h.lt
  old _ hid _ := hid
  passed := by simp
  behind := by simp
  made := by simp
  tail := by
    rw [Nat.zero_add, List.drop_of_length_le (by simp [ids])]
    exact fun id hid => absurd hid List.not_mem_nil
  inside h := h

end

end Playground.ReentrantEmit
