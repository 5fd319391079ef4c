import Mathlib.Algebra.BigOperators.Group.Finset.Basic
import Mathlib.Order.Filter.AtTopBot.Basic
import Playground.DoublyLinkedListSound
import Playground.Lib.DListCells

/-!
# No node is lost

Each operation counts in `size_` what it allocates and what it frees, so that
there are as many nodes in memory as all sizes together say. The lists own
that many, no two of them the same: so there are no others.
-/

namespace Playground.DoublyLinkedList

open DList

section
variable {T : Type} {m m' : Memory T} {l l' : DoublyLinkedList}

/-! ## One operation -/

theorem pushFront_accounts {val : T} (h : pushFront m l val = some (m', l')) :
    Accounts m.fresh m.heap l.size m'.fresh m'.heap l'.size := by
  obtain ⟨heap, hlink, he⟩ := Option.bind_eq_some_iff.mp h
  cases he
  exact (Accounts.new ..).trans (.same (sameCells_linkPrev hlink))

theorem pushBack_accounts {val : T} (h : pushBack m l val = some (m', l')) :
    Accounts m.fresh m.heap l.size m'.fresh m'.heap l'.size := by
  obtain ⟨heap, hlink, he⟩ := Option.bind_eq_some_iff.mp h
  cases he
  exact (Accounts.new ..).trans (.same (sameCells_linkNext hlink))

theorem popFront_accounts (hsize : 0 < l.size) (h : popFront m l = some (m', l')) :
    Accounts m.fresh m.heap l.size m'.fresh m'.heap l'.size := by
  obtain ⟨tmp, _, h⟩ := Option.bind_eq_some_iff.mp h
  obtain ⟨n, hn, h⟩ := Option.bind_eq_some_iff.mp h
  obtain ⟨heap, hlink, he⟩ := Option.bind_eq_some_iff.mp h
  cases he
  have hsame := sameCells_linkPrev hlink
  exact (Accounts.same hsame).trans (.delete (by simp [hsame tmp, hn]) hsize)

theorem popBack_accounts (hsize : 0 < l.size) (h : popBack m l = some (m', l')) :
    Accounts m.fresh m.heap l.size m'.fresh m'.heap l'.size := by
  obtain ⟨tmp, _, h⟩ := Option.bind_eq_some_iff.mp h
  obtain ⟨n, hn, h⟩ := Option.bind_eq_some_iff.mp h
  obtain ⟨heap, hlink, he⟩ := Option.bind_eq_some_iff.mp h
  cases he
  have hsame := sameCells_linkNext hlink
  exact (Accounts.same hsame).trans (.delete (by simp [hsame tmp, hn]) hsize)

theorem insertAt_accounts {pos : Nat} {val : T} (h : insertAt m l pos val = some (m', l')) :
    Accounts m.fresh m.heap l.size m'.fresh m'.heap l'.size := by
  obtain ⟨_, h⟩ := Option.ite_none_right_eq_some.mp h
  split at h
  · exact pushFront_accounts h
  split at h
  · exact pushBack_accounts h
  obtain ⟨cur?, _, h⟩ := Option.bind_eq_some_iff.mp h
  obtain ⟨cur, _, h⟩ := Option.bind_eq_some_iff.mp h
  obtain ⟨c, _, h⟩ := Option.bind_eq_some_iff.mp h
  obtain ⟨prev, _, h⟩ := Option.bind_eq_some_iff.mp h
  obtain ⟨heap₁, hlink₁, h⟩ := Option.bind_eq_some_iff.mp h
  obtain ⟨heap₂, hlink₂, he⟩ := Option.bind_eq_some_iff.mp h
  cases he
  exact ((Accounts.new ..).trans (.same (sameCells_modify hlink₁))).trans (.same (sameCells_modify hlink₂))

theorem erase_accounts {pos : Nat} (h : erase m l pos = some (m', l')) :
    Accounts m.fresh m.heap l.size m'.fresh m'.heap l'.size := by
  obtain ⟨hpos, h⟩ := Option.ite_none_right_eq_some.mp h
  have hsize : 0 < l.size := by omega
  split at h
  · exact popFront_accounts hsize h
  split at h
  · exact popBack_accounts hsize h
  obtain ⟨cur?, _, h⟩ := Option.bind_eq_some_iff.mp h
  obtain ⟨cur, _, h⟩ := Option.bind_eq_some_iff.mp h
  obtain ⟨c, hc, h⟩ := Option.bind_eq_some_iff.mp h
  obtain ⟨prev, _, h⟩ := Option.bind_eq_some_iff.mp h
  obtain ⟨heap₁, hlink₁, h⟩ := Option.bind_eq_some_iff.mp h
  obtain ⟨c', _, h⟩ := Option.bind_eq_some_iff.mp h
  obtain ⟨next, _, h⟩ := Option.bind_eq_some_iff.mp h
  obtain ⟨heap₂, hlink₂, he⟩ := Option.bind_eq_some_iff.mp h
  cases he
  have hsame₁ := sameCells_modify hlink₁
  have hsame₂ := sameCells_modify hlink₂
  exact ((Accounts.same hsame₁).trans (.same hsame₂)).trans
    (.delete (by simp [hsame₂ cur, hsame₁ cur, hc]) hsize)

theorem copyFrom_accounts {other : DoublyLinkedList} (h : copyFrom m l other = some (m', l')) :
    Accounts m.fresh m.heap l.size m'.fresh m'.heap l'.size := by
  obtain ⟨⟨r, cur⟩, hrun, he⟩ := Option.bind_eq_some_iff.mp h
  cases he
  have hround : ∀ s s' : (Memory T × DoublyLinkedList) × Option Nat,
      Accounts m.fresh m.heap l.size s.1.1.fresh s.1.1.heap s.1.2.size → copyBody s = .next s' →
        Accounts m.fresh m.heap l.size s'.1.1.fresh s'.1.1.heap s'.1.2.size := by
    rintro ⟨⟨m₁, l₁⟩, cur⟩ s' hacc hbody
    cases cur with
    | none => cases hbody
    | some n =>
      simp only [copyBody] at hbody
      split at hbody
      · cases hbody
      split at hbody
      · cases hbody
      rename_i m₂ l₂ hpush
      split at hbody
      · cases hbody
        exact hacc.trans (pushBack_accounts hpush)
      · cases hbody
  exact (Loop.run_inv hround hrun (.refl ..)).1

theorem clear_accounts {ns : List (Nat × T)} (ho : Owned m l ns) (h : clear m l = some (m', l')) :
    Accounts m.fresh m.heap l.size m'.fresh m'.heap 0 ∧ l'.size = 0 := by
  have hbody : clearBody (T := T) = freeBody := by
    funext ⟨heap, cur⟩
    cases cur <;> rfl
  obtain ⟨heap, hrun, hacc, -, -⟩ := run_free ho.seg ho.nodup (Nat.lt_succ_of_le ho.length_le) m.fresh
  rw [← hbody, ← ho.head] at hrun
  simp only [clear, hrun, Option.bind_eq_bind, Option.bind_some, Option.some.injEq, Prod.mk.injEq] at h
  obtain ⟨rfl, rfl⟩ := h
  rw [ho.size]
  exact ⟨hacc, rfl⟩

end

/-! ## All lists -/

def sizeAt (lists : Nat → Option DoublyLinkedList) (x : Nat) : Nat := (lists x).elim 0 DoublyLinkedList.size

theorem sum_sizeAt_update {names : Finset Nat} {x : Nat} (hx : x ∈ names) (lists : Nat → Option DoublyLinkedList)
    (o : Option DoublyLinkedList) :
    ∑ y ∈ names, sizeAt (Function.update lists x o) y + sizeAt lists x =
      ∑ y ∈ names, sizeAt lists y + o.elim 0 DoublyLinkedList.size := by
  have hrest : ∑ y ∈ names.erase x, sizeAt (Function.update lists x o) y = ∑ y ∈ names.erase x, sizeAt lists y := by
    apply Finset.sum_congr rfl
    intro y hy
    rw [sizeAt, Function.update_of_ne (Finset.ne_of_mem_erase hy)]
    rfl
  have hself : sizeAt (Function.update lists x o) x = o.elim 0 DoublyLinkedList.size := by simp [sizeAt]
  rw [← Finset.add_sum_erase names _ hx, ← Finset.add_sum_erase names (sizeAt lists) hx, hrest, hself]
  omega

section
variable {T : Type} {s s' : Store T}

/-- There are as many nodes in memory as all lists together count, under whatever names they are. -/
structure Accounted (s : Store T) : Prop where
  below : Below s.mem.fresh s.mem.heap
  count : ∀ᶠ names : Finset Nat in Filter.atTop,
    (allocated s.mem.fresh s.mem.heap).card = ∑ x ∈ names, sizeAt s.lists x

theorem Accounted.set (h : Accounted s) {x : Nat} {m' : Memory T} {o : Option DoublyLinkedList}
    (ha : Accounts s.mem.fresh s.mem.heap (sizeAt s.lists x) m'.fresh m'.heap (o.elim 0 DoublyLinkedList.size)) :
    Accounted ⟨m', Function.update s.lists x o⟩ where
  below := ha.below h.below
  count := by
    filter_upwards [h.count, Filter.eventually_ge_atTop {x}] with names hcount hx
    have hsum := sum_sizeAt_update (hx (Finset.mem_singleton_self x)) s.lists o
    have hacc := ha.count h.below
    show (allocated m'.fresh m'.heap).card = ∑ y ∈ names, sizeAt (Function.update s.lists x o) y
    omega

theorem Accounted.construct (h : Accounted s) {x : Nat} (hs : s.construct x = some s') :
    Accounted s' ∧ sizeAt s'.lists x = 0 := by
  obtain ⟨hx, he⟩ := Option.ite_none_right_eq_some.mp hs
  cases he
  have hzero : sizeAt s.lists x = 0 := by rw [sizeAt, Option.isNone_iff_eq_none.mp hx]; rfl
  refine ⟨h.set ?_, by simp [sizeAt]⟩
  rw [hzero]
  exact .refl ..

theorem Accounted.on (h : Accounted s) {x : Nat}
    (f : Memory T → DoublyLinkedList → Option (Memory T × DoublyLinkedList)) (hs : s.on x f = some s')
    (hf : ∀ l m' l', s.lists x = some l → f s.mem l = some (m', l') →
      Accounts s.mem.fresh s.mem.heap l.size m'.fresh m'.heap l'.size) : Accounted s' := by
  obtain ⟨l, hl, hs⟩ := Option.bind_eq_some_iff.mp hs
  obtain ⟨⟨m', l'⟩, hfl, he⟩ := Option.bind_eq_some_iff.mp hs
  cases he
  apply h.set
  rw [sizeAt, hl]
  exact hf l m' l' hl hfl

theorem Accounted.clear {nodes : Nat → List (Nat × T)} {A : Sequences T} (h : Accounted s)
    (hr : Rep s nodes A) {x : Nat} (hs : s.on x DoublyLinkedList.clear = some s') :
    Accounted s' ∧ sizeAt s'.lists x = 0 := by
  constructor
  · apply h.on _ hs
    intro l m' l' hl hfl
    obtain ⟨hacc, hsize⟩ := clear_accounts (hr.owned x l hl) hfl
    rwa [hsize]
  · obtain ⟨l, hl, hs⟩ := Option.bind_eq_some_iff.mp hs
    obtain ⟨⟨m', l'⟩, hfl, he⟩ := Option.bind_eq_some_iff.mp hs
    cases he
    have hsize := (clear_accounts (hr.owned x l hl) hfl).2
    simp [sizeAt, hsize]

/-- Nodes change hands, and `x` had none. -/
theorem Accounted.steal (h : Accounted s) {x other : Nat} (hzero : sizeAt s.lists x = 0) (hne : x ≠ other)
    (hs : s.steal x other = some s') : Accounted s' := by
  obtain ⟨o, ho, he⟩ := Option.bind_eq_some_iff.mp hs
  cases he
  refine ⟨h.below, ?_⟩
  filter_upwards [h.count, Filter.eventually_ge_atTop {x}, Filter.eventually_ge_atTop {other}] with names
    hcount hx hother
  have hsum₁ := sum_sizeAt_update (hx (Finset.mem_singleton_self x)) s.lists (some o)
  have hsum₂ := sum_sizeAt_update (hother (Finset.mem_singleton_self other)) (Function.update s.lists x (some o))
    (some {})
  have hold : sizeAt (Function.update s.lists x (some o)) other = o.size := by
    rw [sizeAt, Function.update_of_ne (Ne.symm hne), ho]
    rfl
  simp only [Option.elim_some] at hsum₁ hsum₂
  show (allocated s.mem.fresh s.mem.heap).card =
    ∑ y ∈ names, sizeAt (Function.update (Function.update s.lists x (some o)) other (some {})) y
  omega

theorem Owned.size_pos {m : Memory T} {l : DoublyLinkedList} {ns : List (Nat × T)} (h : Owned m l ns) {a : Nat}
    (ha : l.head = some a ∨ l.tail = some a) : 0 < l.size := by
  rw [h.head, h.tail] at ha
  cases ns with
  | nil => simp at ha
  | cons x ns =>
    rw [h.size]
    exact Nat.succ_pos _

theorem Accounted.step {nodes : Nat → List (Nat × T)} {A : Sequences T} (h : Accounted s) (hr : Rep s nodes A)
    {c : Call T} (hs : s.step c = some s') : Accounted s' := by
  cases c with
  | construct x => exact (h.construct hs).1
  | destroy x =>
    obtain ⟨s₁, hclear, he⟩ := Option.bind_eq_some_iff.mp hs
    cases he
    obtain ⟨h₁, hzero⟩ := h.clear hr hclear
    apply h₁.set
    rw [hzero]
    exact .refl ..
  | pushFront x val =>
    exact h.on (fun m l => DoublyLinkedList.pushFront m l val) hs fun _ _ _ _ => pushFront_accounts
  | pushBack x val => exact h.on (fun m l => DoublyLinkedList.pushBack m l val) hs fun _ _ _ _ => pushBack_accounts
  | popFront x =>
    apply h.on _ hs
    intro l m' l' hl hf
    obtain ⟨a, ha, _⟩ := Option.bind_eq_some_iff.mp hf
    exact popFront_accounts ((hr.owned x l hl).size_pos (.inl ha)) hf
  | popBack x =>
    apply h.on _ hs
    intro l m' l' hl hf
    obtain ⟨a, ha, _⟩ := Option.bind_eq_some_iff.mp hf
    exact popBack_accounts ((hr.owned x l hl).size_pos (.inr ha)) hf
  | insertAt x pos val =>
    exact h.on (fun m l => DoublyLinkedList.insertAt m l pos val) hs fun _ _ _ _ => insertAt_accounts
  | erase x pos => exact h.on (fun m l => DoublyLinkedList.erase m l pos) hs fun _ _ _ _ => erase_accounts
  | copyConstruct x other =>
    obtain ⟨s₁, hconstruct, hs⟩ := Option.bind_eq_some_iff.mp hs
    obtain ⟨o, _, hs⟩ := Option.bind_eq_some_iff.mp hs
    exact (h.construct hconstruct).1.on _ hs fun _ _ _ _ => copyFrom_accounts
  | copyAssign x other =>
    obtain ⟨o, _, hs⟩ := Option.bind_eq_some_iff.mp hs
    by_cases hne : x = other
    · rw [if_pos hne] at hs
      cases hs
      exact h
    · rw [if_neg hne] at hs
      obtain ⟨s₁, hclear, hs⟩ := Option.bind_eq_some_iff.mp hs
      exact (h.clear hr hclear).1.on _ hs fun _ _ _ _ => copyFrom_accounts
  | moveConstruct x other =>
    obtain ⟨o, ho, hs⟩ := Option.bind_eq_some_iff.mp hs
    obtain ⟨s₁, hconstruct, hs⟩ := Option.bind_eq_some_iff.mp hs
    have hne : x ≠ other := by
      rintro rfl
      obtain ⟨hx, _⟩ := Option.ite_none_right_eq_some.mp hconstruct
      simp [ho] at hx
    obtain ⟨h₁, hzero⟩ := h.construct hconstruct
    exact h₁.steal hzero hne hs
  | moveAssign x other =>
    obtain ⟨o, _, hs⟩ := Option.bind_eq_some_iff.mp hs
    by_cases hne : x = other
    · rw [if_pos hne] at hs
      cases hs
      exact h
    · rw [if_neg hne] at hs
      obtain ⟨s₁, hclear, hs⟩ := Option.bind_eq_some_iff.mp hs
      obtain ⟨h₁, hzero⟩ := h.clear hr hclear
      exact h₁.steal hzero hne hs

/-! ## The nodes of the lists are all there are -/

theorem Accounted.owner {nodes : Nat → List (Nat × T)} {A : Sequences T} (h : Accounted s)
    (hr : Rep s nodes A) {a : Nat} (ha : (s.mem.heap a).isSome) : ∃ x l, s.lists x = some l ∧
    a ∈ addrs (nodes x) := by
  obtain ⟨names, hcount⟩ := h.count.exists
  let live := names.filter fun x => (s.lists x).isSome
  have hlist : ∀ x ∈ live, ∃ l, s.lists x = some l :=
    fun x hx => Option.isSome_iff_exists.mp (Finset.mem_filter.mp hx).2
  have hdisjoint : ∀ x ∈ live, ∀ y ∈ live, x ≠ y →
    Disjoint (addrs (nodes x)).toFinset (addrs (nodes y)).toFinset := by
    intro x hx y hy hne
    obtain ⟨lx, hlx⟩ := hlist x hx
    obtain ⟨ly, hly⟩ := hlist y hy
    rw [Finset.disjoint_left]
    intro b hb hb'
    exact hr.unshared x y lx ly hlx hly hne b (List.mem_toFinset.mp hb) (List.mem_toFinset.mp hb')
  have hsize : ∀ x ∈ live, (addrs (nodes x)).toFinset.card = sizeAt s.lists x := by
    intro x hx
    obtain ⟨l, hl⟩ := hlist x hx
    have ho := hr.owned x l hl
    rw [List.toFinset_card_of_nodup ho.nodup, sizeAt, hl, addrs, List.length_map]
    exact ho.size.symm
  have hsum : ∑ x ∈ live, sizeAt s.lists x = ∑ x ∈ names, sizeAt s.lists x := by
    apply Finset.sum_filter_of_ne
    intro x _ hne
    by_contra hx
    rw [Bool.not_eq_true, Option.isSome_eq_false_iff, Option.isNone_iff_eq_none] at hx
    exact hne (by rw [sizeAt, hx]; rfl)
  have hall : live.biUnion (fun x => (addrs (nodes x)).toFinset) = allocated s.mem.fresh s.mem.heap := by
    apply Finset.eq_of_subset_of_card_le
    · intro b hb
      obtain ⟨x, hx, hb⟩ := Finset.mem_biUnion.mp hb
      obtain ⟨l, hl⟩ := hlist x hx
      exact (mem_allocated_of_below h.below).mpr ((hr.owned x l hl).seg.isSome b (List.mem_toFinset.mp hb))
    · rw [hcount, ← hsum, Finset.card_biUnion hdisjoint, Finset.sum_congr rfl hsize]
  have hmem := (mem_allocated_of_below h.below).mpr ha
  rw [← hall] at hmem
  obtain ⟨x, hx, hb⟩ := Finset.mem_biUnion.mp hmem
  obtain ⟨l, hl⟩ := hlist x hx
  exact ⟨x, l, hl, List.mem_toFinset.mp hb⟩

/-- Following `next` from the first node of the list `x` comes to the node at `a`. -/
def Visits (s : Store T) (x a : Nat) : Prop :=
  ∃ l ns, s.lists x = some l ∧ Path Cell.next s.mem.heap l.head ns none ∧ a ∈ addrs ns

end

end Playground.DoublyLinkedList
