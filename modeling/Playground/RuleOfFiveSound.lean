import Playground.RuleOfFive

/-!
# The buffers are values

Each array belongs to one object (`Owned`), so a write through one object does
not show in another, nothing is freed twice and nothing is lost. Each operation
allocates an array, frees one, hands one over or writes to one, and does to the
lists what `Values.apply` says.
-/

namespace Playground.RuleOfFive

open Handles

section
variable {N : Type} [DecidableEq N] {s : State N} {n other : N} {a : Nat} {b : Buffer} {l : List Int} {heap : Heap}

/-- An object that points to an array has the size of the array, and one with a null pointer has size 0. -/
structure Inv (s : State N) : Prop where
  owned : Owned s.holds s.heap.live
  size : ∀ n b, s.objects n = some b → b.size = (s.heap.contents b).length

theorem inv_init (new : Source Nat Nat) : Inv (buffers new : Machine (State N) (Op N) Out).init where
  owned := Owned.empty
  size n b h := by cases h

omit [DecidableEq N] in
theorem holds_of (h : s.objects n = some b) : s.holds n = b.data := by rw [State.holds, h]; rfl

omit [DecidableEq N] in
theorem live_alloc : Heap.live (Function.update heap a (some l)) = Function.update heap.live a true := by
  funext k
  by_cases hk : k = a
  · subst hk
    simp [Heap.live]
  · simp [Heap.live, hk]

theorem live_free : Heap.live (Function.update heap a none) = Function.update heap.live a false := by
  funext k
  by_cases hk : k = a
  · subst hk
    simp [Heap.live]
  · simp [Heap.live, hk]

theorem contents_of_ne {x : Option (List Int)} (h : b.data ≠ some a) :
    Heap.contents (Function.update heap a x) b = heap.contents b := by
  unfold Heap.contents
  cases hd : b.data with
  | none => rfl
  | some a' =>
    have hne : a' ≠ a := by
      rintro rfl
      exact h hd
    simp [hne]

theorem contents_new {size : Nat} : Heap.contents (Function.update heap a (some l)) ⟨size, some a⟩ = l := by
  simp [Heap.contents]

omit [DecidableEq N] in
/-- Two objects do not share an array. -/
theorem Inv.data_ne (h : Inv s) {m : N} {c : Buffer} (hn : s.objects n = some b) (hm : s.objects m = some c)
    (hne : m ≠ n) (hb : b.data = some a) : c.data ≠ some a := fun hc =>
  hne (h.owned.inj m n a ((holds_of hm).trans hc) ((holds_of hn).trans hb))

omit [DecidableEq N] in
theorem Inv.elements (h : Inv s) (hn : s.objects n = some b) : s.heap.elements b = some (s.heap.contents b) := by
  have hsize := h.size n b hn
  unfold Heap.elements Heap.contents at *
  cases hd : b.data with
  | none => simpa [hd] using hsize
  | some a =>
    have hlive := h.owned.held_live ((holds_of hn).trans hd)
    obtain ⟨l, hl⟩ := Option.isSome_iff_exists.mp hlive
    simp only [hd, hl, Option.getD_some] at hsize ⊢
    simp [hsize]

theorem holds_update (n : N) (ob : Option Buffer) (heap : Heap) :
    State.holds ⟨Function.update s.objects n ob, heap⟩ = Function.update s.holds n (ob.bind Buffer.data) := by
  funext k
  by_cases hk : k = n
  · subst hk
    simp [State.holds]
  · simp [State.holds, hk]

/-! ## Allocate, free, hand over, write -/

theorem Inv.alloc (h : Inv s) (hn : s.holds n = none) (hf : s.heap.live a = false) (l : List Int) :
    let s' : State N := ⟨Function.update s.objects n (some ⟨l.length, some a⟩), Function.update s.heap a (some l)⟩
    Inv s' ∧ s'.values = Function.update s.values n (some l) := by
  have hold : ∀ k c, s.objects k = some c →
    Heap.contents (Function.update s.heap a (some l)) c = s.heap.contents c :=
    fun k c hk => contents_of_ne fun hc => h.owned.not_held hf k ((holds_of hk).trans hc)
  refine ⟨⟨?_, fun k c hk => ?_⟩, funext fun k => ?_⟩
  · rw [holds_update, live_alloc]
    exact h.owned.acquire hn hf
  · dsimp only at hk ⊢
    by_cases hkn : k = n
    · subst hkn
      rw [Function.update_self] at hk
      cases hk
      rw [contents_new]
    · rw [Function.update_of_ne hkn] at hk
      rw [hold k c hk]
      exact h.size k c hk
  · by_cases hkn : k = n
    · subst hkn
      simp [State.values, contents_new]
    · simp only [State.values, Function.update_of_ne hkn]
      cases hk : s.objects k with
      | none => rfl
      | some c => simp [hold k c hk]

theorem Inv.free (h : Inv s) (hn : s.objects n = some b) {ob : Option Buffer}
    (hob : ob = none ∨ ob = some ⟨0, none⟩) :
    ∃ heap, s.heap.delete b.data = some heap ∧ Inv ⟨Function.update s.objects n ob, heap⟩ ∧
      State.values ⟨Function.update s.objects n ob, heap⟩ = Function.update s.values n (ob.map fun _ => []) := by
  have hnull : ob.bind Buffer.data = none := by rcases hob with rfl | rfl <;> rfl
  have hempty : ∀ heap : Heap, ob.map heap.contents = ob.map fun _ => [] := by
    rcases hob with rfl | rfl <;> intro heap <;> rfl
  have hsize : ∀ (heap : Heap) c, ob = some c → c.size = (heap.contents c).length := by
    rcases hob with rfl | rfl
    · rintro heap c ⟨⟩
    · rintro heap c ⟨⟩
      rfl
  cases hd : b.data with
  | none =>
    refine ⟨s.heap, rfl, ⟨?_, fun k c hk => ?_⟩, funext fun k => ?_⟩
    · rw [holds_update, hnull, ← hd, ← holds_of hn, Function.update_eq_self]
      exact h.owned
    · dsimp only at hk ⊢
      by_cases hkn : k = n
      · subst hkn
        rw [Function.update_self] at hk
        exact hsize _ c hk
      · rw [Function.update_of_ne hkn] at hk
        exact h.size k c hk
    · by_cases hkn : k = n
      · subst hkn
        simp [State.values, hempty]
      · simp [State.values, hkn]
  | some a =>
    have hlive := h.owned.held_live ((holds_of hn).trans hd)
    obtain ⟨l, hl⟩ := Option.isSome_iff_exists.mp hlive
    have hold : ∀ k c, k ≠ n → s.objects k = some c →
      Heap.contents (Function.update s.heap a none) c = s.heap.contents c :=
      fun k c hkn hk => contents_of_ne (h.data_ne hn hk hkn hd)
    refine ⟨Function.update s.heap a none, by simp [Heap.delete, hl], ⟨?_, fun k c hk => ?_⟩, funext fun k => ?_⟩
    · rw [holds_update, hnull, live_free]
      exact h.owned.free ((holds_of hn).trans hd)
    · dsimp only at hk ⊢
      by_cases hkn : k = n
      · subst hkn
        rw [Function.update_self] at hk
        exact hsize _ c hk
      · rw [Function.update_of_ne hkn] at hk
        rw [hold k c hkn hk]
        exact h.size k c hk
    · by_cases hkn : k = n
      · subst hkn
        simp [State.values, hempty]
      · simp only [State.values, Function.update_of_ne hkn]
        cases hk : s.objects k with
        | none => rfl
        | some c => simp [hold k c hkn hk]

theorem Inv.steal (h : Inv s) (hn : s.holds n = none) (hm : s.objects other = some b) (hne : n ≠ other) :
    let s' : State N := ⟨Function.update (Function.update s.objects n (some b)) other (some ⟨0, none⟩), s.heap⟩
    Inv s' ∧ s'.values = Function.update (Function.update s.values n (s.values other)) other (some []) := by
  refine ⟨⟨?_, fun k c hk => ?_⟩, funext fun k => ?_⟩
  · have hholds :
      State.holds ⟨Function.update (Function.update s.objects n (some b)) other (some ⟨0, none⟩), s.heap⟩ =
        Function.update (Function.update s.holds other none) n b.data := by
      rw [Function.update_comm hne.symm]
      funext k
      by_cases hko : k = other
      · subst hko
        simp [State.holds]
      · by_cases hkn : k = n
        · subst hkn
          simp [State.holds, hko]
        · simp [State.holds, hkn, hko]
    rw [hholds]
    have hdata := holds_of hm
    cases hd : b.data with
    | some a => exact h.owned.transfer hn (hdata.trans hd)
    | none =>
      rw [hd] at hdata
      rw [← hdata, Function.update_eq_self, hdata, ← hn, Function.update_eq_self]
      exact h.owned
  · dsimp only at hk ⊢
    by_cases hko : k = other
    · subst hko
      rw [Function.update_self] at hk
      cases hk
      rfl
    · rw [Function.update_of_ne hko] at hk
      by_cases hkn : k = n
      · subst hkn
        rw [Function.update_self] at hk
        cases hk
        exact h.size other _ hm
      · rw [Function.update_of_ne hkn] at hk
        exact h.size k c hk
  · by_cases hko : k = other
    · subst hko
      simp [State.values, Heap.contents]
    · by_cases hkn : k = n
      · subst hkn
        simp [State.values, hko, hm]
      · simp [State.values, hko, hkn]

theorem Inv.modify (h : Inv s) (hn : s.objects n = some b) (hd : b.data = some a) (ha : s.heap a = some l)
    (idx : Nat) (x : Int) :
    let s' : State N := ⟨s.objects, Function.update s.heap a (some (l.set idx x))⟩
    Inv s' ∧ s'.values = Function.update s.values n (some (l.set idx x)) := by
  have hnew : Heap.contents (Function.update s.heap a (some (l.set idx x))) b = l.set idx x := by
    simp [Heap.contents, hd]
  have hcur : s.heap.contents b = l := by simp [Heap.contents, hd, ha]
  have hold : ∀ k c, k ≠ n → s.objects k = some c →
      Heap.contents (Function.update s.heap a (some (l.set idx x))) c = s.heap.contents c :=
    fun k c hkn hk => contents_of_ne (h.data_ne hn hk hkn hd)
  refine ⟨⟨?_, fun k c hk => ?_⟩, funext fun k => ?_⟩
  · rw [live_alloc, ← h.owned.held_live ((holds_of hn).trans hd), Function.update_eq_self]
    exact h.owned
  · dsimp only at hk ⊢
    by_cases hkn : k = n
    · subst hkn
      obtain rfl := Option.some.inj (hn.symm.trans hk)
      rw [hnew, List.length_set, ← hcur]
      exact h.size k b hn
    · rw [hold k c hkn hk]
      exact h.size k c hk
  · by_cases hkn : k = n
    · subst hkn
      simp [State.values, hn, hnew]
    · simp only [State.values, Function.update_of_ne hkn]
      cases hk : s.objects k with
      | none => rfl
      | some c => simp [hold k c hkn hk]

/-! ## The operations -/

variable {new : Source Nat Nat}

/-- A step that does to the lists what it should. -/
def Works (new : Source Nat Nat) (s : State N) (op : Op N) : Prop :=
  ∃ s' out, step new s op = some (s', out) ∧ Inv s' ∧ s.values.Gives op out ∧ s'.values = s.values.apply op out

omit [DecidableEq N] in
theorem objects_of_values (h : s.values n = some l) : ∃ b, s.objects n = some b ∧ s.heap.contents b = l :=
  Option.map_eq_some_iff.mp h

omit [DecidableEq N] in
theorem objects_none (h : s.values n = none) : s.objects n = none ∧ s.holds n = none := by
  have hn : s.objects n = none := Option.map_eq_none_iff.mp h
  exact ⟨hn, by rw [State.holds, hn]; rfl⟩

theorem Inv.construct (h : Inv s) {size : Nat} (hl : s.values n = none) : Works new s (.construct n size) := by
  obtain ⟨hn, hnull⟩ := objects_none hl
  cases hp : new.pick s.heap.live size with
  | none => exact ⟨s, .threw, by simp [step, State.construct, hn, hp], h, .inr rfl, rfl⟩
  | some a =>
    obtain ⟨hi, hv⟩ := h.alloc hnull (new.free _ _ _ hp) (List.replicate size 0)
    rw [List.length_replicate] at hi hv
    exact ⟨_, .done, by simp [step, State.construct, hn, hp], hi, .inl rfl, hv⟩

omit [DecidableEq N] in
/-- A copy is a new array with the same elements. -/
theorem Inv.copy (h : Inv s) (hb : s.objects other = some b) {a : Nat} (hp : new.pick s.heap.live b.size = some a) :
    s.heap.copy new b = some (some (⟨(s.heap.contents b).length, some a⟩,
      Function.update s.heap a (some (s.heap.contents b)))) := by
  simp only [Heap.copy, hp, h.elements hb, Option.map_some, ← h.size other b hb]

theorem Inv.copyConstruct (h : Inv s) (hl : s.values n = none) (ho : ∃ l, s.values other = some l) :
    Works new s (.copyConstruct n other) := by
  obtain ⟨l, ho⟩ := ho
  obtain ⟨hn, hnull⟩ := objects_none hl
  obtain ⟨b, hb, hc⟩ := objects_of_values ho
  cases hp : new.pick s.heap.live b.size with
  | none => exact ⟨s, .threw, by simp [step, State.copyConstruct, hn, hb, Heap.copy, hp], h, .inr rfl, rfl⟩
  | some a =>
    obtain ⟨hi, hv⟩ := h.alloc hnull (new.free _ _ _ hp) (s.heap.contents b)
    refine ⟨_, .done, by simp [step, State.copyConstruct, hn, hb, h.copy hb hp], hi, .inl rfl, ?_⟩
    rw [hv, hc, ← ho]
    rfl

/-- It makes no difference whether the old array is freed before the new one is allocated. -/
theorem delete_update {heap heap' : Heap} {p : Option Nat} (hdel : heap.delete p = some heap') (hp : p ≠ some a)
    (hf : heap.live a = false) :
    heap'.live a = false ∧ Heap.delete (Function.update heap a (some l)) p =
      some (Function.update heap' a (some l)) := by
  cases p with
  | none =>
    cases hdel
    exact ⟨hf, rfl⟩
  | some a' =>
    have hne : a' ≠ a := by
      rintro rfl
      exact hp rfl
    simp only [Heap.delete] at hdel
    split at hdel
    · rename_i l' hl'
      cases hdel
      refine ⟨?_, ?_⟩
      · rw [live_free, Function.update_of_ne hne.symm]
        exact hf
      · simp only [Heap.delete, Function.update_of_ne hne, hl']
        rw [Function.update_comm hne.symm]
    · cases hdel

theorem Inv.copyAssign (h : Inv s) (hl : ∃ l, s.values n = some l) (ho : ∃ l, s.values other = some l) :
    Works new s (.copyAssign n other) := by
  obtain ⟨ln, hl⟩ := hl
  obtain ⟨l, ho⟩ := ho
  obtain ⟨c, hn, _⟩ := objects_of_values hl
  obtain ⟨b, hb, hc⟩ := objects_of_values ho
  by_cases hne : n = other
  · subst hne
    refine ⟨s, .done, by simp [step, State.copyAssign, hn], h, .inl rfl, ?_⟩
    simp [Values.apply]
  cases hp : new.pick s.heap.live b.size with
  | none =>
    refine ⟨s, .threw, by simp [step, State.copyAssign, hn, hb, hne, Heap.copy, hp], h, .inr ⟨rfl, hne⟩, rfl⟩
  | some a =>
    have hfree := new.free _ _ _ hp
    obtain ⟨heap, hdel, hi, hv⟩ := h.free hn (.inr rfl)
    have hda : c.data ≠ some a := fun hd => h.owned.not_held hfree n ((holds_of hn).trans hd)
    have hnew := delete_update (l := s.heap.contents b) hdel hda hfree
    have hnull : State.holds ⟨Function.update s.objects n (some ⟨0, none⟩), heap⟩ n = none := by simp [State.holds]
    obtain ⟨hi', hv'⟩ := hi.alloc hnull hnew.1 (s.heap.contents b)
    simp only [Function.update_idem] at hi' hv'
    refine ⟨_, .done, by simp only [step, State.copyAssign, hn, hb, if_neg hne, h.copy hb hp, hnew.2]; rfl, hi',
      .inl rfl, ?_⟩
    rw [hv', hv, Function.update_idem, hc, ← ho]
    rfl

theorem Inv.moveConstruct (h : Inv s) (hl : s.values n = none) (ho : ∃ l, s.values other = some l) :
    Works new s (.moveConstruct n other) := by
  obtain ⟨l, ho⟩ := ho
  obtain ⟨hn, hnull⟩ := objects_none hl
  obtain ⟨b, hb, _⟩ := objects_of_values ho
  have hne : n ≠ other := by
    rintro rfl
    rw [hn] at hb
    cases hb
  obtain ⟨hi, hv⟩ := h.steal hnull hb hne
  exact ⟨_, .done, by simp [step, State.moveConstruct, hn, hb], hi, rfl, hv⟩

theorem Inv.moveAssign (h : Inv s) (hl : ∃ l, s.values n = some l) (ho : ∃ l, s.values other = some l) :
    Works new s (.moveAssign n other) := by
  obtain ⟨ln, hl⟩ := hl
  obtain ⟨l, ho⟩ := ho
  obtain ⟨c, hn, _⟩ := objects_of_values hl
  obtain ⟨b, hb, _⟩ := objects_of_values ho
  by_cases hne : n = other
  · subst hne
    exact ⟨s, .done, by simp [step, State.moveAssign, hn], h, rfl, by simp [Values.apply]⟩
  · obtain ⟨heap, hdel, hi, hv⟩ := h.free hn (.inr rfl)
    have hnull : State.holds ⟨Function.update s.objects n (some ⟨0, none⟩), heap⟩ n = none := by simp [State.holds]
    obtain ⟨hi', hv'⟩ := hi.steal (b := b) hnull (by simp only [Function.update_of_ne (Ne.symm hne), hb]) hne
    simp only [Function.update_idem] at hi' hv'
    refine ⟨_, .done, by simp only [step, State.moveAssign, hn, hb, if_neg hne, hdel]; rfl, hi', rfl, ?_⟩
    rw [hv', hv]
    simp only [Values.apply, if_neg hne, Function.update_idem, Function.update_of_ne (Ne.symm hne)]

omit [DecidableEq N] in
/-- An index below the length reaches the array of the object. -/
theorem Inv.at? (h : Inv s) (hl : s.values n = some l) {idx : Nat} (hi : idx < l.length) :
    ∃ b a, s.objects n = some b ∧ b.data = some a ∧ s.heap a = some l ∧ s.at? n idx = some (a, l) := by
  obtain ⟨b, hn, hc⟩ := objects_of_values hl
  cases hd : b.data with
  | none =>
    rw [← hc] at hi
    simp [Heap.contents, hd] at hi
  | some a =>
    obtain ⟨l', hl'⟩ := Option.isSome_iff_exists.mp (h.owned.held_live ((holds_of hn).trans hd))
    obtain rfl : l' = l := by simpa [Heap.contents, hd, hl'] using hc
    exact ⟨b, a, hn, hd, hl', by simp [State.at?, hn, hd, hl', hi]⟩

theorem Inv.works (h : Inv s) {op : Op N} (hl : Legal s.values op) : Works new s op := by
  cases op with
  | construct n size => exact h.construct hl
  | copyConstruct n other => exact h.copyConstruct hl.1 hl.2
  | moveConstruct n other => exact h.moveConstruct hl.1 hl.2
  | copyAssign n other => exact h.copyAssign hl.1 hl.2
  | moveAssign n other => exact h.moveAssign hl.1 hl.2
  | write n idx x =>
    obtain ⟨l, hl, hi⟩ := hl
    obtain ⟨b, a, hn, hd, ha, hat⟩ := h.at? hl hi
    obtain ⟨hi', hv⟩ := h.modify hn hd ha idx x
    refine ⟨_, .done, by simp only [step, hat]; rfl, hi', rfl, ?_⟩
    rw [hv]
    simp [Values.apply, hl]
  | read n idx =>
    obtain ⟨l, hl, hi⟩ := hl
    obtain ⟨b, a, hn, hd, ha, hat⟩ := h.at? hl hi
    have hx := List.getElem?_eq_getElem hi
    exact ⟨s, .value l[idx], by simp [step, hat, hx], h, ⟨l, l[idx], hl, hx, rfl⟩, rfl⟩
  | size n =>
    obtain ⟨l, hl⟩ := hl
    obtain ⟨b, hn, hc⟩ := objects_of_values hl
    exact ⟨s, .size b.size, by simp [step, hn], h, ⟨l, hl, by rw [h.size n b hn, hc]⟩, rfl⟩
  | destroy n =>
    obtain ⟨l, hl⟩ := hl
    obtain ⟨b, hn, _⟩ := objects_of_values hl
    obtain ⟨heap, hdel, hi, hv⟩ := h.free hn (.inl rfl)
    exact ⟨_, .done, by simp only [step, State.destroy, hn, hdel]; rfl, hi, rfl, hv⟩

/-! ## Runs -/

theorem replay_snoc (v : Values N) (trace : List (Op N × Out)) (p : Op N × Out) :
    v.replay (trace ++ [p]) = (v.replay trace).apply p.1 p.2 := by simp [Values.replay]

theorem explains_snoc (v : Values N) (trace : List (Op N × Out)) (p : Op N × Out) :
    v.Explains (trace ++ [p]) ↔ v.Explains trace ∧ (v.replay trace).Gives p.1 p.2 := by
  induction trace generalizing v with
  | nil => simp [Values.Explains, Values.replay]
  | cons q trace ih => simp only [List.cons_append, Values.Explains, ih, and_assoc, Values.replay, List.foldl_cons]

theorem run_inv (new : Source Nat Nat) (ops : List (Op N))
    (hg : (buffers new).Guarded (fun s op => Legal s.values op) ops) :
    ∃ s, (buffers new).exec ops = some s ∧ Inv s ∧
      Values.Explains (fun _ => none) ((buffers new).traceFrom (buffers new).init ops) ∧
      s.values = Values.replay (fun _ => none) ((buffers new).traceFrom (buffers new).init ops) := by
  induction ops using List.reverseRecOn with
  | nil => exact ⟨_, rfl, inv_init new, trivial, rfl⟩
  | append_singleton ops op ih =>
    obtain ⟨hg, hop⟩ := ((buffers new).guarded_snoc _ ops op).mp hg
    obtain ⟨s, he, hi, hexp, hval⟩ := ih hg
    obtain ⟨s', out, hst, hi', hgives, hval'⟩ := hi.works (hop s he)
    refine ⟨s', (buffers new).exec_snoc_of he hst, hi', ?_⟩
    rw [(buffers new).traceFrom_snoc he hst, explains_snoc, replay_snoc, ← hval]
    exact ⟨⟨hexp, hgives⟩, hval'⟩

/-- Buffers are values: while only objects and elements that exist are used, nothing that is done is without
meaning, each object holds the list that the operations on it say, and every array has exactly one owner. -/
theorem buffers_run (new : Source Nat Nat) (ops : List (Op N))
    (hg : (buffers new).Guarded (fun s op => Legal s.values op) ops) :
    ∃ s, (buffers new).exec ops = some s ∧
      Values.Explains (fun _ => none) ((buffers new).traceFrom (buffers new).init ops) ∧
      s.values = Values.replay (fun _ => none) ((buffers new).traceFrom (buffers new).init ops) ∧
      Owned s.holds s.heap.live := by
  obtain ⟨s, he, hi, hexp, hval⟩ := run_inv new ops hg
  exact ⟨s, he, hexp, hval, hi.owned⟩

end

/-- An allocator that hands out the least free address below 4. -/
def fourArrays : Source Nat Nat := .least 4

/-- A copy, a write to it, a move over the original, and the end of both. -/
def copyWriteMove : List (Op Bool) :=
  [.construct false 2, .copyConstruct true false, .write true 1 7, .moveAssign false true, .read false 1,
    .size true, .destroy true, .destroy false]

theorem buffers_run_two : ∃ s, (buffers fourArrays).exec copyWriteMove = some s ∧ Owned s.holds s.heap.live := by
  obtain ⟨s, he, _, _, ho⟩ := buffers_run fourArrays copyWriteMove (by
    refine ⟨rfl, ?_⟩
    rintro _ ⟨⟩
    refine ⟨⟨rfl, _, rfl⟩, ?_⟩
    rintro _ ⟨⟩
    refine ⟨⟨_, rfl, by decide⟩, ?_⟩
    rintro _ ⟨⟩
    refine ⟨⟨⟨_, rfl⟩, _, rfl⟩, ?_⟩
    rintro _ ⟨⟩
    refine ⟨⟨_, rfl, by decide⟩, ?_⟩
    rintro _ ⟨⟩
    refine ⟨⟨_, rfl⟩, ?_⟩
    rintro _ ⟨⟩
    refine ⟨⟨_, rfl⟩, ?_⟩
    rintro _ ⟨⟩
    refine ⟨⟨_, rfl⟩, ?_⟩
    rintro _ ⟨⟩
    trivial)
  exact ⟨s, he, ho⟩

end Playground.RuleOfFive
