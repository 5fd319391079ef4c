import Mathlib.Data.List.Nodup
import Playground.Lib.ImplicitTree
import Playground.SegmentTree

/-!
# Segment trees answer range queries

All three recursions halve the same intervals, and the tree holds for each
node of them what `op` makes of its interval. What a call does below one child
does not touch the other.
-/

namespace Playground.SegmentTree

open ImplicitTree

section
variable {T : Type} {op : T → T → T} {arr arr' tree tree' : List T} {n node s e : Nat} {x y : T}

/-- The subtree of `node` over the indices from `s` to `e` holds the value `x`, as built from the array. -/
inductive Holds (op : T → T → T) (arr tree : List T) : Nat → Nat → Nat → T → Prop
  | leaf {node i : Nat} {x : T} : arr[i]? = some x → tree[node]? = some x → Holds op arr tree node i i x
  | branch {node s e : Nat} {x y : T} : s < e → Holds op arr tree (2 * node) s ((s + e) / 2) x →
      Holds op arr tree (2 * node + 1) ((s + e) / 2 + 1) e y → tree[node]? = some (op x y) →
      Holds op arr tree node s e (op x y)

theorem Holds.root (h : Holds op arr tree node s e x) : tree[node]? = some x := by
  cases h with
  | leaf _ h => exact h
  | branch _ _ _ h => exact h

theorem Holds.congr (h : Holds op arr tree node s e x) (ht : ∀ m, Below node m → tree'[m]? = tree[m]?)
    (ha : ∀ i, s ≤ i → i ≤ e → arr'[i]? = arr[i]?) : Holds op arr' tree' node s e x := by
  induction h with
  | leaf h hr => exact .leaf ((ha _ (Nat.le_refl _) (Nat.le_refl _)).trans h) ((ht _ (.refl _)).trans hr)
  | branch hlt _ _ hr ihl ihr =>
    refine .branch hlt ?_ ?_ ((ht _ (.refl _)).trans hr)
    · exact ihl (fun m hm => ht m hm.of_left) fun i hs he => ha i hs (by omega)
    · exact ihr (fun m hm => ht m hm.of_right) fun i hs he => ha i (by omega) he

theorem Holds.join (hl : Holds op arr tree (2 * node) s ((s + e) / 2) x)
    (hr : Holds op arr tree (2 * node + 1) ((s + e) / 2 + 1) e y) (hlt : s < e) (hpos : 0 < node)
    (hnode : node < tree.length) : Holds op arr (tree.set node (op x y)) node s e (op x y) := by
  refine .branch hlt ?_ ?_ (List.getElem?_set_self hnode)
  · exact hl.congr (fun m hm => List.getElem?_set_ne (hm.ne_of_left hpos)) fun _ _ _ => rfl
  · exact hr.congr (fun m hm => List.getElem?_set_ne hm.ne_of_right) fun _ _ _ => rfl

theorem mid_cast (s e : Nat) : ((s : Int) + e).tdiv 2 = ((s + e) / 2 : Nat) := by
  rw [← Int.natCast_add]
  exact (Int.ofNat_tdiv (s + e) 2).symm

/-- What a call on `node` leaves: a subtree that holds, and the rest as it was. -/
structure Result (op : T → T → T) (arr tree tree' : List T) (node s e : Nat) : Prop where
  length : tree'.length = tree.length
  frame : ∀ m, ¬ Below node m → tree'[m]? = tree[m]?
  holds : ∃ x, Holds op arr tree' node s e x

theorem Result.leaf (hnode : node < tree.length) (hx : arr[s]? = some x) :
    Result op arr tree (tree.set node x) node s s := by
  exact ⟨List.length_set, fun m hm => List.getElem?_set_ne (ne_of_not_below hm), x,
    .leaf hx (List.getElem?_set_self hnode)⟩

/-- One child is as it was, or both have been worked on: `tree'` is `tree` but below `node`. -/
theorem Result.join (hl : Holds op arr tree' (2 * node) s ((s + e) / 2) x)
    (hr : Holds op arr tree' (2 * node + 1) ((s + e) / 2 + 1) e y) (hlt : s < e) (hpos : 0 < node)
    (hnode : node < tree.length) (hlen : tree'.length = tree.length)
    (hframe : ∀ m, ¬ Below (2 * node) m → ¬ Below (2 * node + 1) m → tree'[m]? = tree[m]?) :
    Result op arr tree (tree'.set node (op x y)) node s e := by
  refine ⟨by rw [List.length_set, hlen], fun m hm => ?_, _, hl.join hr hlt hpos (by rw [hlen]; exact hnode)⟩
  rw [List.getElem?_set_ne (ne_of_not_below hm)]
  exact hframe m (fun h => hm h.of_left) fun h => hm h.of_right

/-! ## Building -/

theorem build_leaf {fuel : Nat} (hnode : node < tree.length) (hx : arr[s]? = some x) :
    build op arr (fuel + 1) tree node s s = some (tree.set node x) := by
  simp [build, hx, Vec.write_of hnode]

theorem build_branch {fuel : Nat} {tree₁ tree₂ : List T} (hne : s ≠ e)
    (hl : build op arr fuel tree (2 * node) s ((s + e) / 2 : Nat) = some tree₁)
    (hr : build op arr fuel tree₁ (2 * node + 1) ((s + e) / 2 + 1 : Nat) e = some tree₂)
    (hx : tree₂[2 * node]? = some x) (hy : tree₂[2 * node + 1]? = some y) (hnode : node < tree₂.length) :
    build op arr (fuel + 1) tree node s e = some (tree₂.set node (op x y)) := by
  have hne' : ¬ (s : Int) = e := by omega
  rw [Int.natCast_succ] at hr
  simp only [build, if_neg hne', mid_cast, hl, hr, hx, hy, Vec.write_of hnode, Option.bind_eq_bind,
    Option.bind_some]

theorem build_spec (op : T → T → T) (arr : List T) (fuel : Nat) (tree : List T) (node s e : Nat) (hs : s ≤ e)
    (he : e < arr.length) (hfit : Fits n node (e - s)) (hfuel : e - s < fuel) (hlen : tree.length = 4 * n) :
    ∃ tree', build op arr fuel tree node s e = some tree' ∧ Result op arr tree tree' node s e := by
  induction fuel generalizing tree node s e with
  | zero => exact absurd hfuel (Nat.not_lt_zero _)
  | succ fuel ih =>
    have hnode : node < tree.length := by
      rw [hlen]
      exact hfit.lt
    by_cases heq : s = e
    · subst heq
      have hx : arr[s]? = some arr[s] := List.getElem?_eq_getElem he
      exact ⟨_, build_leaf hnode hx, .leaf hnode hx⟩
    · obtain ⟨tree₁, hl, hres₁⟩ := ih tree (2 * node) s ((s + e) / 2) (by omega) (by omega)
        (hfit.child (by omega) (by omega) (by omega)) (by omega) hlen
      obtain ⟨tree₂, hr, hres₂⟩ := ih tree₁ (2 * node + 1) ((s + e) / 2 + 1) e (by omega) he
        (hfit.child (by omega) (by omega) (by omega)) (by omega) (hres₁.length.trans hlen)
      obtain ⟨x, hx⟩ := hres₁.holds
      obtain ⟨y, hy⟩ := hres₂.holds
      have hx' : Holds op arr tree₂ (2 * node) s ((s + e) / 2) x :=
        hx.congr (fun m hm => hres₂.frame m fun hm' => hm.disjoint hfit.pos hm') fun _ _ _ => rfl
      have hlen₂ := hres₂.length.trans hres₁.length
      refine ⟨_, build_branch heq hl hr hx'.root hy.root (by rw [hlen₂]; exact hnode), ?_⟩
      refine .join hx' hy (by omega) hfit.pos hnode hlen₂ fun m hm hm' => ?_
      rw [hres₂.frame m hm', hres₁.frame m hm]

/-- A tree over `n` elements of an array. -/
structure Represents (t : SegmentTree T) (identity : T) (op : T → T → T) (arr : List T) (n : Nat) : Prop where
  size : t.n = n
  unit : t.identity = identity
  operation : t.op = op
  length : t.tree.length = 4 * n
  holds : ∃ x, Holds op arr t.tree 1 0 (n - 1) x

theorem construct_spec {fuel : Nat} (identity : T) (op : T → T → T) (hn : CInt.ofSize arr.length = n) (hpos : 0 < n)
    (hlt : n < 2 ^ 29) (hfuel : n ≤ fuel) :
    ∃ t, construct fuel arr identity op = some (.accepted t) ∧ Represents t identity op arr n := by
  have hle := CInt.ofSize_le arr.length
  have hsize : ¬ (4 * (n : Int)) < 0 := by omega
  have hfit : CInt.fit (4 * (n : Int)) = some (4 * (n : Int)) := CInt.fit_of (by omega) (by omega)
  have hcells : (4 * (n : Int)).toNat = 4 * n := by omega
  have hend : (n : Int) - 1 = (n - 1 : Nat) := by omega
  obtain ⟨tree, hrun, hres⟩ := build_spec op arr fuel (List.replicate (4 * n) identity) 1 0 (n - 1)
    (Nat.zero_le _) (by omega) (Fits.root hpos) (by omega) List.length_replicate
  refine ⟨⟨tree, n, identity, op⟩, ?_, rfl, rfl, rfl, hres.length.trans List.length_replicate, hres.holds⟩
  have hrun' : build op arr fuel (List.replicate (4 * n) identity) 1 0 ((n - 1 : Nat) : Int) = some tree := hrun
  simp only [construct, hn, hfit, if_neg hsize, hcells, hend, hrun', Option.bind_eq_bind, Option.bind_some]

/-- Over no elements the interval is `0 .. -1`, and the first write is outside the tree. -/
theorem build_empty (fuel : Nat) : build op arr fuel [] 1 0 (-1) = none := by
  cases fuel with
  | zero => rfl
  | succ fuel =>
    have hleft : build op arr fuel [] 2 0 0 = none := by
      cases fuel with
      | zero => rfl
      | succ fuel => simp [build, Vec.write]
    simp [build, hleft]

theorem construct_negative {fuel : Nat} {size : Int} (identity : T) (op : T → T → T)
    (hfit : CInt.fit (4 * CInt.ofSize arr.length) = some size) (hneg : size < 0) :
    construct fuel arr identity op = some .lengthError := by
  simp only [construct, hfit, if_pos hneg, Option.bind_eq_bind, Option.bind_some]

theorem construct_zero (fuel : Nat) (identity : T) (op : T → T → T) (hzero : CInt.ofSize arr.length = 0) :
    construct fuel arr identity op = none := by
  simp [construct, hzero, CInt.fit_of, build_empty]

theorem construct_bounds {fuel : Nat} {identity : T} {c : Construction T}
    (h : construct fuel arr identity op = some c) :
    -2 ^ 29 ≤ CInt.ofSize arr.length ∧ CInt.ofSize arr.length < 2 ^ 29 := by
  simp only [construct, Option.bind_eq_bind, Option.bind_eq_some_iff] at h
  obtain ⟨size, hsize, -⟩ := h
  have hfit := CInt.fit_eq_some hsize
  omega

/-- **Construction reads and writes inside its vectors, and ends**, exactly for the sizes that are not 0
as an `int` and that the `int` can hold four times. -/
theorem construct_iff (arr : List T) (identity : T) (op : T → T → T) :
    (∃ fuel c, construct fuel arr identity op = some c) ↔
      CInt.ofSize arr.length ≠ 0 ∧ -2 ^ 29 ≤ CInt.ofSize arr.length ∧ CInt.ofSize arr.length < 2 ^ 29 := by
  constructor
  · intro ⟨fuel, c, h⟩
    refine ⟨fun hzero => ?_, construct_bounds h⟩
    rw [construct_zero fuel identity op hzero] at h
    cases h
  · intro ⟨hne, hlo, hhi⟩
    by_cases hneg : CInt.ofSize arr.length < 0
    · have hfit : CInt.fit (4 * CInt.ofSize arr.length) = some (4 * CInt.ofSize arr.length) :=
        CInt.fit_of (by omega) (by omega)
      exact ⟨0, _, construct_negative identity op hfit (by omega)⟩
    · obtain ⟨n, hn⟩ := Int.eq_ofNat_of_zero_le (by omega : 0 ≤ CInt.ofSize arr.length)
      obtain ⟨t, ht, -⟩ := construct_spec identity op hn (by omega) (by omega) (Nat.le_refl n)
      exact ⟨n, _, ht⟩

theorem construct_nil : ¬ ∀ arr : List Int, ∃ fuel c, construct fuel arr 0 (· + ·) = some c := by
  intro h
  obtain ⟨fuel, c, hc⟩ := h []
  rw [construct_zero fuel 0 (· + ·) (by decide)] at hc
  cases hc

/-! ## Updating -/

theorem updateAt_leaf [Add T] {fuel : Nat} {idx : Int} {val : T} (hx : tree[node]? = some x) :
    updateAt op (fuel + 1) tree node s s idx val = some (tree.set node (x + val)) := by
  have hnode := (List.getElem?_eq_some_iff.mp hx).1
  simp [updateAt, hx, Vec.write_of hnode]

theorem updateAt_branch [Add T] {fuel idx : Nat} {val : T} (hne : s ≠ e)
    (h : (if idx ≤ (s + e) / 2 then updateAt op fuel tree (2 * node) s ((s + e) / 2 : Nat) idx val
      else updateAt op fuel tree (2 * node + 1) ((s + e) / 2 + 1 : Nat) e idx val) = some tree')
    (hx : tree'[2 * node]? = some x) (hy : tree'[2 * node + 1]? = some y) (hnode : node < tree'.length) :
    updateAt op (fuel + 1) tree node s e idx val = some (tree'.set node (op x y)) := by
  have hne' : ¬ (s : Int) = e := by omega
  rw [Int.natCast_succ] at h
  by_cases hmid : idx ≤ (s + e) / 2
  · rw [if_pos hmid] at h
    simp only [updateAt, if_neg hne', mid_cast, Int.ofNat_le, if_pos hmid, h, hx, hy, Vec.write_of hnode,
      Option.bind_eq_bind, Option.bind_some]
  · rw [if_neg hmid] at h
    simp only [updateAt, if_neg hne', mid_cast, Int.ofNat_le, if_neg hmid, h, hx, hy, Vec.write_of hnode,
      Option.bind_eq_bind, Option.bind_some]

theorem updateAt_spec [Add T] (h : Holds op arr tree node s e x) {fuel idx : Nat} (val : T) (hpos : 0 < node)
    (hlo : s ≤ idx) (hhi : idx ≤ e) (hfuel : e - s < fuel) :
    ∃ tree', updateAt op fuel tree node s e idx val = some tree' ∧
      Result op (arr.modify idx (· + val)) tree tree' node s e := by
  induction h generalizing fuel with
  | @leaf node i x hi hr =>
    obtain ⟨fuel, rfl⟩ := Nat.exists_eq_add_of_lt hfuel
    have hidx : idx = i := by omega
    subst hidx
    refine ⟨_, updateAt_leaf hr, .leaf (List.getElem?_eq_some_iff.mp hr).1 ?_⟩
    rw [List.getElem?_modify_eq, hi]
    rfl
  | @branch node s e x y hlt hl hr hroot ihl ihr =>
    cases fuel with
    | zero => exact absurd hfuel (Nat.not_lt_zero _)
    | succ fuel =>
      have hnode := (List.getElem?_eq_some_iff.mp hroot).1
      have hkept : ∀ i, i ≠ idx → (arr.modify idx (· + val))[i]? = arr[i]? := fun i hne =>
        List.getElem?_modify_ne _ _ hne.symm
      by_cases hmid : idx ≤ (s + e) / 2
      · have hshort : (s + e) / 2 - s < fuel := by omega
        obtain ⟨tree', hrun, hres⟩ := ihl (by omega) hlo hmid hshort
        obtain ⟨x', hx'⟩ := hres.holds
        have hy' : Holds op (arr.modify idx (· + val)) tree' (2 * node + 1) ((s + e) / 2 + 1) e y :=
          hr.congr (fun m hm => hres.frame m fun hm' => hm'.disjoint hpos hm) fun i hi _ => hkept i (by omega)
        refine ⟨_, updateAt_branch (by omega) ?_ hx'.root hy'.root (by rw [hres.length]; exact hnode), ?_⟩
        · rw [if_pos hmid]
          exact hrun
        · exact .join hx' hy' hlt hpos hnode hres.length fun m hm _ => hres.frame m hm
      · have hshort : e - ((s + e) / 2 + 1) < fuel := by omega
        obtain ⟨tree', hrun, hres⟩ := ihr (by omega) (by omega) hhi hshort
        obtain ⟨y', hy'⟩ := hres.holds
        have hx' : Holds op (arr.modify idx (· + val)) tree' (2 * node) s ((s + e) / 2) x :=
          hl.congr (fun m hm => hres.frame m fun hm' => hm.disjoint hpos hm') fun i _ hi => hkept i (by omega)
        refine ⟨_, updateAt_branch (by omega) ?_ hx'.root hy'.root (by rw [hres.length]; exact hnode), ?_⟩
        · rw [if_neg hmid]
          exact hrun
        · exact .join hx' hy' hlt hpos hnode hres.length fun m _ hm => hres.frame m hm

theorem update_spec [Add T] {t : SegmentTree T} {identity : T} {fuel idx : Nat}
    (ht : Represents t identity op arr n) (hidx : idx < n) (hfuel : n ≤ fuel) (val : T) :
    ∃ t', update fuel t idx val = some t' ∧ Represents t' identity op (arr.modify idx (· + val)) n := by
  obtain ⟨x, hx⟩ := ht.holds
  have hend : t.n - 1 = (n - 1 : Nat) := by rw [ht.size]; omega
  obtain ⟨tree', hrun, hres⟩ := updateAt_spec hx val Nat.one_pos (Nat.zero_le idx) (by omega)
    (by omega : n - 1 - 0 < fuel)
  refine ⟨{ t with tree := tree' }, ?_, ht.size, ht.unit, ht.operation, hres.length.trans ht.length, hres.holds⟩
  have hrun' : updateAt op fuel t.tree 1 0 ((n - 1 : Nat) : Int) idx val = some tree' := hrun
  simp only [update, ht.operation, hend, hrun', Option.bind_eq_bind, Option.bind_some]

theorem updates_spec [Add T] {t : SegmentTree T} {identity : T} {fuel : Nat} (ht : Represents t identity op arr n)
    (hfuel : n ≤ fuel) (us : List (Nat × T)) (hus : ∀ u ∈ us, u.1 < n) :
    ∃ t', updates fuel us t = some t' ∧ Represents t' identity op (current arr us) n := by
  induction us generalizing t arr with
  | nil => exact ⟨t, rfl, ht⟩
  | cons u us ih =>
    obtain ⟨t₁, hrun, ht₁⟩ := update_spec ht (hus u List.mem_cons_self) hfuel u.2
    obtain ⟨t', hruns, ht'⟩ := ih ht₁ fun v hv => hus v (List.mem_cons_of_mem u hv)
    refine ⟨t', ?_, ht'⟩
    rw [updates, List.foldlM_cons, hrun]
    exact hruns

/-! ## Querying -/

theorem filter_split {α : Type} {R : α → α → Prop} {p q : α → Bool}
    (hq : ∀ a b, R a b → q b = true → q a = true) {xs : List α} (hxs : xs.Pairwise R) :
    xs.filter p = xs.filter (fun a => p a && q a) ++ xs.filter fun a => p a && !q a := by
  induction xs with
  | nil => rfl
  | cons x xs ih =>
    obtain ⟨hx, hxs⟩ := List.pairwise_cons.mp hxs
    by_cases hqx : q x = true
    · cases hpx : p x with
      | true => simp [hpx, hqx, ih hxs]
      | false => simp [hpx, ih hxs]
    · have hrest : ∀ y ∈ x :: xs, q y = false := by
        intro y hy
        rw [← Bool.not_eq_true]
        rcases List.mem_cons.mp hy with rfl | hy
        · exact hqx
        · exact fun hqy => hqx (hq x y (hx y hy) hqy)
      have hnone : (x :: xs).filter (fun a => p a && q a) = [] :=
        List.filter_eq_nil_iff.mpr fun y hy => by simp [hrest y hy]
      have hall : (x :: xs).filter (fun a => p a && !q a) = (x :: xs).filter p :=
        List.filter_congr fun y hy => by simp [hrest y hy]
      rw [hnone, hall, List.nil_append]

theorem elements_split (arr : List T) (l r m : Int) :
    elements arr l r = elements arr l (min r m) ++ elements arr (max l (m + 1)) r := by
  have hq : ∀ i j : Nat, i < j → decide ((j : Int) ≤ m) = true → decide ((i : Int) ≤ m) = true := by
    intro i j hij hj
    have hj' := of_decide_eq_true hj
    exact decide_eq_true (by omega)
  unfold elements
  rw [filter_split hq List.pairwise_lt_range, List.filterMap_append]
  congr 2
  · refine List.filter_congr fun i _ => ?_
    rw [← Bool.decide_and, decide_eq_decide]
    omega
  · refine List.filter_congr fun i _ => ?_
    rw [← decide_not, ← Bool.decide_and, decide_eq_decide]
    omega

theorem elements_eq_nil {l r : Int} (h : r < l) : elements arr l r = [] := by
  have hnone : (List.range arr.length).filter (fun i : Nat => l ≤ (i : Int) ∧ (i : Int) ≤ r) = [] :=
    List.filter_eq_nil_iff.mpr fun i _ => by simp; omega
  rw [elements, hnone, List.filterMap_nil]

theorem elements_self (h : arr[s]? = some x) : elements arr s s = [x] := by
  have hs := (List.getElem?_eq_some_iff.mp h).1
  have hone : (List.range arr.length).filter (fun i : Nat => (s : Int) ≤ i ∧ (i : Int) ≤ s) = [s] := by
    have heq : (List.range arr.length).filter (fun i : Nat => (s : Int) ≤ i ∧ (i : Int) ≤ s) =
        (List.range arr.length).filter (· == s) := by
      refine List.filter_congr fun i _ => ?_
      rw [beq_eq_decide, decide_eq_decide]
      omega
    rw [heq, List.filter_beq, List.count_eq_one_of_mem List.nodup_range (List.mem_range.mpr hs)]
    rfl
  rw [elements, hone, List.filterMap_cons, h]
  rfl

section
variable {identity : T} [Std.Associative op] [Std.LawfulIdentity op identity]

theorem foldl_append_op (a b : List T) :
    (a ++ b).foldl op identity = op (a.foldl op identity) (b.foldl op identity) := by
  have hid : op (a.foldl op identity) identity = a.foldl op identity := Std.LawfulRightIdentity.right_id _
  calc (a ++ b).foldl op identity = b.foldl op (op (a.foldl op identity) identity) := by
        rw [List.foldl_append, hid]
    _ = op (a.foldl op identity) (b.foldl op identity) := List.foldl_assoc

omit [Std.Associative op] in
theorem foldl_single (x : T) : [x].foldl op identity = x :=
  Std.LawfulLeftIdentity.left_id x

theorem foldl_split (arr : List T) (l r m : Int) : (elements arr l r).foldl op identity =
    op ((elements arr l (min r m)).foldl op identity) ((elements arr (max l (m + 1)) r).foldl op identity) := by
  rw [elements_split arr l r m, foldl_append_op]

theorem Holds.value (h : Holds op arr tree node s e x) : x = (elements arr s e).foldl op identity := by
  induction h with
  | leaf hi _ => rw [elements_self hi, foldl_single]
  | @branch node s e x y hlt _ _ _ ihl ihr =>
    rw [foldl_split arr s e ((s + e) / 2 : Nat), ihl, ihr, Int.min_eq_right (by omega), Int.max_eq_right (by omega)]
    rfl

theorem queryAt_out {t : SegmentTree T} {fuel node : Nat} {s e l r : Int} (h : r < s ∨ e < l) :
    queryAt t (fuel + 1) node s e l r = some t.identity := if_pos h

theorem queryAt_within {t : SegmentTree T} {fuel node : Nat} {s e l r : Int} (h : ¬ (r < s ∨ e < l))
    (h' : l ≤ s ∧ e ≤ r) : queryAt t (fuel + 1) node s e l r = t.tree[node]? := by
  rw [queryAt, if_neg h, if_pos h']

theorem queryAt_branch {t : SegmentTree T} {fuel : Nat} {l r : Int} (h : ¬ (r < (s : Int) ∨ (e : Int) < l))
    (h' : ¬ (l ≤ (s : Int) ∧ (e : Int) ≤ r)) (hl : queryAt t fuel (2 * node) s ((s + e) / 2 : Nat) l r = some x)
    (hr : queryAt t fuel (2 * node + 1) ((s + e) / 2 + 1 : Nat) e l r = some y) :
    queryAt t (fuel + 1) node s e l r = some (t.op x y) := by
  rw [Int.natCast_succ] at hr
  simp only [queryAt, if_neg h, if_neg h', mid_cast, hl, hr, Option.bind_eq_bind, Option.bind_some]

theorem queryAt_spec {t : SegmentTree T} (hunit : t.identity = identity) (hop : t.op = op)
    (h : Holds op arr t.tree node s e x) (fuel : Nat) (hfuel : e - s < fuel) (l r : Int) :
    queryAt t fuel node s e l r = some ((elements arr (max l s) (min r e)).foldl op identity) := by
  induction fuel generalizing node s e x with
  | zero => exact absurd hfuel (Nat.not_lt_zero _)
  | succ fuel ih =>
    by_cases hout : r < (s : Int) ∨ (e : Int) < l
    · have hnone : elements arr (max l s) (min r e) = [] := by
        cases h with
        | leaf => exact elements_eq_nil (by omega)
        | branch => exact elements_eq_nil (by omega)
      rw [queryAt_out hout, hnone, hunit]
      rfl
    by_cases hin : l ≤ (s : Int) ∧ (e : Int) ≤ r
    · rw [queryAt_within hout hin, h.root, Int.max_eq_right hin.1, Int.min_eq_right hin.2, ← h.value]
    cases h with
    | leaf hi hr => omega
    | @branch _ _ _ x y hlt hl hr hroot =>
      rw [queryAt_branch hout hin (ih hl (by omega)) (ih hr (by omega)), hop,
        foldl_split arr (max l s) (min r e) ((s + e) / 2 : Nat)]
      have hend : min (min r (e : Int)) ((s + e) / 2 : Nat) = min r ((s + e) / 2 : Nat) := by omega
      have hstart : max (max l (s : Int)) (((s + e) / 2 : Nat) + 1) = max l ((s + e) / 2 + 1 : Nat) := by omega
      rw [hend, hstart]

theorem elements_clamp (arr : List T) (l r : Int) :
    elements arr (max l 0) (min r (arr.length - 1)) = elements arr l r := by
  unfold elements
  congr 1
  refine List.filter_congr fun i hi => ?_
  have hlt := List.mem_range.mp hi
  rw [decide_eq_decide]
  omega

theorem query_spec {t : SegmentTree T} {fuel : Nat} (ht : Represents t identity op arr arr.length)
    (hne : arr ≠ []) (hfuel : arr.length ≤ fuel) (l r : Int) :
    query fuel t l r = some ((elements arr l r).foldl op identity) := by
  have hpos := List.length_pos_of_ne_nil hne
  obtain ⟨x, hx⟩ := ht.holds
  have hend : (arr.length : Int) - 1 = (arr.length - 1 : Nat) := by omega
  have hrun := queryAt_spec ht.unit ht.operation hx fuel (by omega) l r
  rw [← hend, Int.natCast_zero, elements_clamp] at hrun
  rw [query, ht.size]
  exact hrun

end

theorem length_current [Add T] (arr : List T) (us : List (Nat × T)) : (current arr us).length = arr.length := by
  induction us generalizing arr with
  | nil => rfl
  | cons u us ih => exact (ih _).trans (List.length_modify _ _ _)

/-- **Every query folds the elements of its range in order**, whatever updates came before, and no call leaves
the `4 * n` cells of the tree. -/
theorem query_folds [Add T] (op : T → T → T) (identity : T) [Std.Associative op] [Std.LawfulIdentity op identity]
    (arr : List T) (hne : arr ≠ []) (hlt : arr.length < 2 ^ 29) (fuel : Nat) (hfuel : arr.length ≤ fuel) :
    ∃ t, construct fuel arr identity op = some (.accepted t) ∧ t.tree.length = 4 * arr.length ∧
      ∀ us : List (Nat × T), (∀ u ∈ us, u.1 < arr.length) →
        ∃ t', updates fuel us t = some t' ∧ t'.tree.length = 4 * arr.length ∧
          ∀ l r : Int, query fuel t' l r = some ((elements (current arr us) l r).foldl op identity) := by
  have hn : CInt.ofSize arr.length = arr.length := CInt.ofSize_of_lt (by omega)
  obtain ⟨t, ht, hrep⟩ := construct_spec identity op hn (List.length_pos_of_ne_nil hne) hlt hfuel
  refine ⟨t, ht, hrep.length, fun us hus => ?_⟩
  obtain ⟨t', ht', hrep'⟩ := updates_spec hrep hfuel us hus
  refine ⟨t', ht', hrep'.length, fun l r => ?_⟩
  have hlen := length_current arr us
  rw [← hlen] at hrep' hfuel
  refine query_spec hrep' (fun hnil => hne ?_) hfuel l r
  rw [← List.length_eq_zero_iff, ← hlen, hnil, List.length_nil]

theorem query_folds_six : ∃ t, construct 6 [1, 3, 5, 7, 9, 11] (0 : Int) (· + ·) = some (.accepted t) ∧
    t.tree.length = 24 ∧ ∀ us : List (Nat × Int), (∀ u ∈ us, u.1 < 6) →
      ∃ t', updates 6 us t = some t' ∧ t'.tree.length = 24 ∧ ∀ l r : Int,
        query 6 t' l r = some ((elements (current [1, 3, 5, 7, 9, 11] us) l r).foldl (· + ·) 0) :=
  query_folds (· + ·) 0 [1, 3, 5, 7, 9, 11] (by decide) (by decide) 6 (by decide)

theorem construct_wide {k : Nat} (hk : k = 2 ^ 29) (fuel : Nat) :
    construct fuel (List.replicate k (0 : Int)) 0 (· + ·) = none := by
  have hn : CInt.ofSize (List.replicate k (0 : Int)).length = k := by
    rw [List.length_replicate]
    exact CInt.ofSize_of_lt (by omega)
  have hfit : CInt.fit (4 * (k : Int)) = none := CInt.fit_of_le (by omega)
  simp only [construct, hn, hfit, Option.bind_eq_bind, Option.bind_none]

/-- `4 * n_` overflows. -/
theorem query_long : ¬ ∀ (arr : List Int), arr ≠ [] →
    ∃ fuel t, construct fuel arr 0 (· + ·) = some (.accepted t) ∧
      ∀ us : List (Nat × Int), (∀ u ∈ us, u.1 < arr.length) → ∃ t', updates fuel us t = some t' ∧ ∀ l r : Int,
        query fuel t' l r = some ((elements (current arr us) l r).foldl (· + ·) 0) := by
  intro h
  obtain ⟨k, hk⟩ : ∃ k : Nat, k = 2 ^ 29 := ⟨_, rfl⟩
  have hne : List.replicate k (0 : Int) ≠ [] := by
    rw [Ne, List.replicate_eq_nil_iff]
    omega
  obtain ⟨fuel, t, ht, -⟩ := h _ hne
  rw [construct_wide hk] at ht
  cases ht

end

end Playground.SegmentTree
