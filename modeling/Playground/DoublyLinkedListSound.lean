import Mathlib.Data.Finset.Basic
import Playground.DoublyLinkedList

/-!
# Every list object represents its sequence

`Owned`: a list object and the nodes that are its own. An operation on one
object may change its own nodes and new ones only (`Changes`), so the other
objects keep theirs. The store refines one sequence for each object.
-/

namespace Playground.DoublyLinkedList

open DList

section
variable {T : Type}

def addrs (ns : List (Nat × T)) : List Nat := ns.map Prod.fst

def values (ns : List (Nat × T)) : List T := ns.map Prod.snd

@[simp] theorem addrs_append (l₁ l₂ : List (Nat × T)) : addrs (l₁ ++ l₂) = addrs l₁ ++ addrs l₂ := by simp [addrs]

@[simp] theorem addrs_cons (n : Nat × T) (l : List (Nat × T)) : addrs (n :: l) = n.1 :: addrs l := rfl

@[simp] theorem addrs_nil : addrs ([] : List (Nat × T)) = [] := rfl

@[simp] theorem values_append (l₁ l₂ : List (Nat × T)) : values (l₁ ++ l₂) = values l₁ ++ values l₂ := by
  simp [values]

@[simp] theorem values_cons (n : Nat × T) (l : List (Nat × T)) : values (n :: l) = n.2 :: values l := rfl

@[simp] theorem values_nil : values ([] : List (Nat × T)) = [] := rfl

structure Owned (m : Memory T) (l : DoublyLinkedList) (ns : List (Nat × T)) : Prop where
  seg : Seg m.heap none none ns
  head : l.head = first ns
  tail : l.tail = last ns
  size : l.size = ns.length
  nodup : (addrs ns).Nodup
  fresh : ∀ a ∈ addrs ns, a < m.fresh

/-- What an operation on an object with the nodes `ns`, which ends with the nodes `ns'`, may do to the memory. -/
structure Changes (m : Memory T) (ns : List (Nat × T)) (m' : Memory T) (ns' : List (Nat × T)) : Prop where
  frame : ∀ b < m.fresh, b ∉ addrs ns → m'.heap b = m.heap b
  mono : m.fresh ≤ m'.fresh
  addrs : ∀ a ∈ addrs ns', a ∈ addrs ns ∨ m.fresh ≤ a

theorem Changes.refl (m : Memory T) (ns : List (Nat × T)) : Changes m ns m ns :=
  ⟨fun _ _ _ => rfl, le_rfl, fun _ ha => Or.inl ha⟩

theorem Changes.trans {m m' m'' : Memory T} {ns ns' ns'' : List (Nat × T)} (h : Changes m ns m' ns')
    (h' : Changes m' ns' m'' ns'') : Changes m ns m'' ns'' where
  frame := by
    intro b hb hns
    have hns' : b ∉ DoublyLinkedList.addrs ns' := by
      intro hm
      rcases h.addrs b hm with hm | hm
      · exact hns hm
      · omega
    rw [h'.frame b (Nat.lt_of_lt_of_le hb h.mono) hns', h.frame b hb hns]
  mono := Nat.le_trans h.mono h'.mono
  addrs := by
    intro a ha
    rcases h'.addrs a ha with ha | ha
    · exact h.addrs a ha
    · exact Or.inr (Nat.le_trans h.mono ha)

def Does (m : Memory T) (ns : List (Nat × T)) (r : Option (Memory T × DoublyLinkedList)) (seq : List T) : Prop :=
  ∃ m' l' ns', r = some (m', l') ∧ Owned m' l' ns' ∧ Changes m ns m' ns' ∧ values ns' = seq

/-- A node that is attached or detached leaves only the ends to be set. -/
theorem Owned.attach {m : Memory T} {l : DoublyLinkedList} {l₁ l₂ : List (Nat × T)} (h : Owned m l (l₁ ++ l₂))
    (val : T) :
    ∃ h₁ h₂, linkNext (Function.update m.heap m.fresh (some ⟨val, last l₁, first l₂⟩)) (last l₁) (some m.fresh) =
        some h₁ ∧
      linkPrev h₁ (first l₂) (some m.fresh) = some h₂ ∧
      Changes m (l₁ ++ l₂) ⟨h₂, m.fresh + 1⟩ (l₁ ++ (m.fresh, val) :: l₂) ∧
      ∀ head tail, head = first (l₁ ++ (m.fresh, val) :: l₂) → tail = last (l₁ ++ (m.fresh, val) :: l₂) →
        Owned ⟨h₂, m.fresh + 1⟩ ⟨head, tail, l.size + 1⟩ (l₁ ++ (m.fresh, val) :: l₂) := by
  have hn : m.fresh ∉ addrs (l₁ ++ l₂) := fun hm => Nat.lt_irrefl _ (h.fresh _ hm)
  have hperm : (addrs (l₁ ++ (m.fresh, val) :: l₂)).Perm (m.fresh :: addrs (l₁ ++ l₂)) := by
    simp only [addrs_append, addrs_cons]
    exact List.perm_middle
  have hnd : (addrs (l₁ ++ (m.fresh, val) :: l₂)).Nodup := hperm.nodup_iff.mpr (List.nodup_cons.mpr ⟨hn, h.nodup⟩)
  obtain ⟨h₁, h₂, he₁, he₂, hs, hf⟩ := (h.seg.update hn _).attach hnd (Function.update_self ..)
  refine ⟨h₁, h₂, he₁, he₂, ⟨?_, Nat.le_succ _, ?_⟩, ?_⟩
  · intro b hb hns
    exact (hf b hns).trans (Function.update_of_ne (Nat.ne_of_lt hb) _ _)
  · intro a ha
    rcases List.mem_cons.mp (hperm.subset ha) with rfl | ha
    · exact Or.inr le_rfl
    · exact Or.inl ha
  · intro head tail hhead htail
    refine ⟨hs, hhead, htail, ?_, hnd, ?_⟩
    · simp [h.size, Nat.add_assoc]
    · intro a ha
      rcases List.mem_cons.mp (hperm.subset ha) with rfl | ha
      · exact Nat.lt_succ_self _
      · exact Nat.lt_succ_of_lt (h.fresh a ha)

theorem Owned.detach {m : Memory T} {l : DoublyLinkedList} {l₁ l₂ : List (Nat × T)} {a : Nat} {d : T}
    (h : Owned m l (l₁ ++ (a, d) :: l₂)) :
    ∃ h₁ h₂, m.heap a = some ⟨d, last l₁, first l₂⟩ ∧ linkNext m.heap (last l₁) (first l₂) = some h₁ ∧
      h₁ a = m.heap a ∧ linkPrev h₁ (first l₂) (last l₁) = some h₂ ∧
      Changes m (l₁ ++ (a, d) :: l₂) { m with heap := Function.update h₂ a none } (l₁ ++ l₂) ∧
      ∀ head tail, head = first (l₁ ++ l₂) → tail = last (l₁ ++ l₂) →
        Owned { m with heap := Function.update h₂ a none } ⟨head, tail, l.size - 1⟩ (l₁ ++ l₂) := by
  have hperm : (addrs (l₁ ++ (a, d) :: l₂)).Perm (a :: addrs (l₁ ++ l₂)) := by
    simp only [addrs_append, addrs_cons]
    exact List.perm_middle
  obtain ⟨ha, hnd⟩ := List.nodup_cons.mp (hperm.nodup_iff.mp h.nodup)
  obtain ⟨-, hc, -⟩ := (seg_middle _ _ _ _ _).mp h.seg
  obtain ⟨h₁, h₂, he₁, hf₁, he₂, hs, hf⟩ := h.seg.detach h.nodup
  refine ⟨h₁, h₂, hc, he₁, hf₁, he₂, ⟨?_, le_rfl, ?_⟩, ?_⟩
  · intro b _ hns
    have hns' : b ∉ a :: addrs (l₁ ++ l₂) := fun hm => hns (hperm.symm.subset hm)
    rw [List.mem_cons, not_or] at hns'
    obtain ⟨hne, hns'⟩ := hns'
    change Function.update h₂ a none b = m.heap b
    rw [Function.update_of_ne hne, hf b hns']
  · intro b hb
    exact Or.inl (hperm.symm.subset (List.mem_cons_of_mem a hb))
  · intro head tail hhead htail
    refine ⟨hs.update ha none, hhead, htail, ?_, hnd, ?_⟩
    · have hsize := h.size
      simp only [List.length_append, List.length_cons] at hsize ⊢
      omega
    · intro b hb
      exact h.fresh b (hperm.symm.subset (List.mem_cons_of_mem a hb))

/-! ## The operations -/

section
variable {m : Memory T} {l : DoublyLinkedList} {ns : List (Nat × T)}

theorem or_some {p : Option Nat} {a : Nat} : (if p.isNone then some a else p) = p.or (some a) := by
  cases p <;> rfl

theorem pushFront_does (h : Owned m l ns) (val : T) : Does m ns (pushFront m l val) (val :: values ns) := by
  have hnil : Owned m l ([] ++ ns) := h
  obtain ⟨h₁, h₂, he₁, he₂, hch, ho⟩ := hnil.attach val
  obtain rfl := Option.some.inj he₁
  rw [last_nil, ← h.head] at he₂
  refine ⟨_, _, _, ?_, ho _ (l.tail.or (some m.fresh)) rfl ?_, hch, rfl⟩
  · simp only [pushFront, he₂, or_some]
    rfl
  · rw [h.tail, List.nil_append, last_cons]

theorem pushBack_does (h : Owned m l ns) (val : T) : Does m ns (pushBack m l val) (values ns ++ [val]) := by
  rw [← List.append_nil ns] at h
  obtain ⟨h₁, h₂, he₁, he₂, hch, ho⟩ := h.attach val
  rw [List.append_nil] at h hch
  obtain rfl := Option.some.inj he₂
  rw [first_nil, ← h.tail] at he₁
  refine ⟨_, _, _, ?_, ho (l.head.or (some m.fresh)) (some m.fresh) ?_ ?_, hch, by simp⟩
  · simp only [pushBack, he₁, or_some]
    rfl
  · rw [h.head, first_append]
    rfl
  · rw [last_snoc]

theorem if_isSome_last {x : Nat × T} : (if (first ns).isSome then last (x :: ns) else none) = last ns := by
  cases ns with
  | nil => rfl
  | cons y ns => simp [last_cons]

theorem popFront_does {x : Nat × T} (h : Owned m l (x :: ns)) : Does m (x :: ns) (popFront m l) (values ns) := by
  obtain ⟨a, d⟩ := x
  have hnil : Owned m l ([] ++ (a, d) :: ns) := h
  obtain ⟨h₁, h₂, hc, he₁, -, he₂, hch, ho⟩ := hnil.detach
  obtain rfl := Option.some.inj he₁
  rw [last_nil] at he₂
  refine ⟨_, _, _, ?_, ho (first ns) (last ns) rfl rfl, hch, rfl⟩
  simp only [popFront, h.head, h.tail, first_cons, hc, he₂, if_isSome_last, Option.bind_eq_bind,
    Option.bind_some]

theorem if_isSome_first {x : Nat × T} : (if (last ns).isSome then first (ns ++ [x]) else none) = first ns := by
  cases ns with
  | nil => rfl
  | cons y ns => simp [last_cons]

theorem popBack_does {x : Nat × T} (h : Owned m l (ns ++ [x])) : Does m (ns ++ [x]) (popBack m l) (values ns) := by
  obtain ⟨a, d⟩ := x
  obtain ⟨h₁, h₂, hc, he₁, -, he₂, hch, ho⟩ := h.detach
  obtain rfl := Option.some.inj he₂
  rw [first_nil] at he₁
  rw [List.append_nil] at hch ho
  refine ⟨_, _, _, ?_, ho (first ns) (last ns) rfl rfl, hch, rfl⟩
  simp only [popBack, h.head, h.tail, last_snoc, hc, he₁, if_isSome_first, Option.bind_eq_bind, Option.bind_some]

theorem advance_first {h : Heap T} {p : Option Nat} (hs : Seg h p none ns) {pos : Nat} (hpos : pos ≤ ns.length) :
    advance h pos (first ns) = some (first (ns.drop pos)) := by
  induction pos generalizing ns p with
  | zero => rfl
  | succ pos ih =>
    cases ns with
    | nil => cases hpos
    | cons x ns =>
      obtain ⟨hc, hs⟩ := hs
      have hrest := ih hs (Nat.le_of_succ_le_succ hpos)
      rw [advance, first_cons, List.drop_succ_cons, ← hrest]
      simp [hc]

theorem split_at (h : Owned m l ns) {pos : Nat} (hpos : pos < ns.length) :
    ∃ l₁ a d l₂, ns = l₁ ++ (a, d) :: l₂ ∧ l₁.length = pos ∧ advance m.heap pos l.head = some (some a) := by
  refine ⟨ns.take pos, ns[pos].1, ns[pos].2, ns.drop (pos + 1), ?_, ?_, ?_⟩
  · rw [← List.drop_eq_getElem_cons hpos, List.take_append_drop]
  · exact List.length_take_of_le hpos.le
  · rw [h.head, advance_first h.seg hpos.le, List.drop_eq_getElem_cons hpos]
    rfl

theorem first_append_of_ne {l₁ : List (Nat × T)} (h : l₁ ≠ []) (l₂ l₂' : List (Nat × T)) :
    first (l₁ ++ l₂) = first (l₁ ++ l₂') := by
  cases l₁ with
  | nil => exact absurd rfl h
  | cons x l₁ => rfl

theorem last_append_of_ne {l₂ : List (Nat × T)} (h : l₂ ≠ []) (l₁ l₁' : List (Nat × T)) :
    last (l₁ ++ l₂) = last (l₁' ++ l₂) := by
  obtain ⟨x, hx⟩ := Option.ne_none_iff_exists'.mp fun e => h (last_eq_none.mp e)
  rw [last_append, last_append, hx]
  rfl

theorem insertAt_does (h : Owned m l ns) {pos : Nat} (hpos : pos ≤ ns.length) (val : T) :
    Does m ns (insertAt m l pos val) ((values ns).take pos ++ val :: (values ns).drop pos) := by
  rw [insertAt, if_pos (h.size ▸ hpos)]
  by_cases h₀ : pos = 0
  · subst h₀
    exact pushFront_does h val
  by_cases hlast : pos = ns.length
  · have hlen : (values ns).length = pos := by simp [values, hlast]
    rw [if_neg h₀, if_pos (hlast.trans h.size.symm), ← hlen, List.take_length, List.drop_length]
    exact pushBack_does h val
  · obtain ⟨l₁, a, d, l₂, rfl, hlen, hadv⟩ := split_at h (lt_of_le_of_ne hpos hlast)
    have hne : l₁ ≠ [] := fun e => h₀ (by rw [← hlen, e]; rfl)
    obtain ⟨p, hp⟩ := Option.ne_none_iff_exists'.mp fun e => hne (last_eq_none.mp e)
    obtain ⟨-, hc, -⟩ := (seg_middle _ _ _ _ _).mp h.seg
    obtain ⟨h₁, h₂, he₁, he₂, hch, ho⟩ := h.attach val
    rw [first_cons] at he₁ he₂
    rw [hp] at hc he₁
    refine ⟨_, _, _, ?_, ho l.head l.tail ?_ ?_, hch, ?_⟩
    · rw [if_neg h₀, if_neg fun e => hlast (e.trans h.size)]
      simp only [linkNext, linkPrev] at he₁ he₂
      simp [hadv, hc, he₁, he₂]
    · rw [h.head]
      exact first_append_of_ne hne _ _
    · have happ : l₁ ++ (m.fresh, val) :: (a, d) :: l₂ = (l₁ ++ [(m.fresh, val)]) ++ (a, d) :: l₂ := by simp
      rw [h.tail, happ]
      exact last_append_of_ne (List.cons_ne_nil _ _) _ _
    · have hlen' : (values l₁).length = pos := by simp [values, hlen]
      simp [← hlen']

theorem erase_does (h : Owned m l ns) {pos : Nat} (hpos : pos < ns.length) :
    Does m ns (erase m l pos) ((values ns).eraseIdx pos) := by
  rw [erase, if_pos (h.size ▸ hpos)]
  by_cases h₀ : pos = 0
  · subst h₀
    cases ns with
    | nil => cases hpos
    | cons x ns => exact popFront_does h
  obtain ⟨l₁, a, d, l₂, rfl, hlen, hadv⟩ := split_at h hpos
  have hlen' : (values l₁).length = pos := by simp [values, hlen]
  have hval : (values (l₁ ++ (a, d) :: l₂)).eraseIdx pos = values (l₁ ++ l₂) := by
    simp [← hlen', List.eraseIdx_append_of_length_le]
  rw [hval]
  have hsize := h.size
  simp only [List.length_append, List.length_cons] at hsize
  by_cases hlast : l₂ = []
  · subst hlast
    rw [if_neg h₀, if_pos (by simp at hsize; omega), List.append_nil]
    exact popBack_does h
  · have hne : l₁ ≠ [] := fun e => h₀ (by rw [← hlen, e]; rfl)
    have hlen₂ := List.length_pos_iff.mpr hlast
    obtain ⟨p, hp⟩ := Option.ne_none_iff_exists'.mp fun e => hne (last_eq_none.mp e)
    obtain ⟨q, hq⟩ : ∃ q, first l₂ = some q := by
      cases l₂ with
      | nil => exact absurd rfl hlast
      | cons x l₂ => exact ⟨x.1, rfl⟩
    obtain ⟨h₁, h₂, hc, he₁, hf₁, he₂, hch, ho⟩ := h.detach
    rw [hc] at hf₁
    rw [hp, hq] at hc he₁ hf₁ he₂
    refine ⟨_, _, _, ?_, ho l.head l.tail ?_ ?_, hch, rfl⟩
    · rw [if_neg h₀, if_neg (by omega)]
      simp only [linkNext, linkPrev] at he₁ he₂
      simp [hadv, hc, he₁, hf₁, he₂]
    · rw [h.head]
      exact first_append_of_ne hne _ _
    · rw [h.tail, ← List.singleton_append, ← List.append_assoc]
      exact last_append_of_ne hlast _ _

theorem Owned.length_le (h : Owned m l ns) : ns.length ≤ m.fresh := by
  have hsub : (addrs ns).Subperm (List.range m.fresh) :=
    h.nodup.subperm fun a ha => List.mem_range.mpr (h.fresh a ha)
  simpa [addrs] using hsub.length_le

theorem clear_does (h : Owned m l ns) : Does m ns (clear m l) [] := by
  let I (rest : List (Nat × T)) (s : Heap T × Option Nat) : Prop :=
    s.2 = first rest ∧ (∃ p, Seg s.1 p none rest) ∧ (addrs rest).Nodup ∧ (∀ x ∈ rest, x ∈ ns) ∧
      ∀ b, b ∉ addrs ns → s.1 b = m.heap b
  have hnil : ∀ s, I [] s → clearBody s = .exit := by
    rintro ⟨heap, cur⟩ ⟨rfl, -⟩
    rfl
  have hcons : ∀ x rest s, I (x :: rest) s → ∃ s', clearBody s = .next s' ∧ I rest s' := by
    rintro ⟨a, d⟩ rest ⟨heap, cur⟩ ⟨rfl, ⟨p, hc, hs⟩, hnd, hsub, hf⟩
    obtain ⟨ha, hnd⟩ := List.nodup_cons.mp hnd
    refine ⟨(Function.update heap a none, first rest), ?_, rfl, ⟨some a, hs.update ha none⟩, hnd, ?_, ?_⟩
    · have hcell : heap a = some ⟨d, p, first rest⟩ := by simpa using hc
      simp [clearBody, hcell]
    · exact fun x hx => hsub x (List.mem_cons_of_mem _ hx)
    · intro b hb
      have hne : b ≠ a := by
        intro heq
        subst heq
        exact hb (List.mem_map_of_mem (hsub (b, d) List.mem_cons_self))
      exact (Function.update_of_ne hne _ _).trans (hf b hb)
  have hi : I ns (m.heap, l.head) := ⟨h.head, ⟨none, h.seg⟩, h.nodup, fun _ hx => hx, fun _ _ => rfl⟩
  obtain ⟨⟨heap, head⟩, hrun, rfl, -, -, -, hf⟩ :=
    Loop.run_traverse hnil hcons hi (Nat.lt_succ_of_le h.length_le)
  refine ⟨{ m with heap }, {}, [], ?_, ⟨trivial, rfl, rfl, rfl, List.nodup_nil, by simp⟩,
    ⟨?_, le_rfl, by simp⟩, rfl⟩
  · simp only [clear, hrun]
    rfl
  · exact fun b _ hb => hf b hb

theorem copyFrom_does (h : Owned m l ns) {other : DoublyLinkedList} {os : List (Nat × T)} (ho : Owned m other os)
    (hdis : ∀ a ∈ addrs os, a ∉ addrs ns) : Does m ns (copyFrom m l other) (values ns ++ values os) := by
  let I (rest : List (Nat × T)) (s : (Memory T × DoublyLinkedList) × Option Nat) : Prop :=
    s.2 = first rest ∧ ∃ copied ns', os = copied ++ rest ∧ Owned s.1.1 s.1.2 ns' ∧ Changes m ns s.1.1 ns' ∧
      values ns' = values ns ++ values copied
  -- the other list is where it was
  have hcell : ∀ {copied rest a d m' ns'}, os = copied ++ (a, d) :: rest → Changes m ns m' ns' →
      m'.heap a = some ⟨d, last copied, first rest⟩ := by
    rintro copied rest a d m' ns' rfl hch
    have ha : a ∈ addrs (copied ++ (a, d) :: rest) := by simp
    rw [hch.frame a (ho.fresh a ha) (hdis a ha)]
    exact ((seg_middle _ _ _ _ _).mp ho.seg).2.1
  have hnil : ∀ s, I [] s → copyBody s = .exit := by
    rintro ⟨⟨m', l'⟩, cur⟩ ⟨rfl, -⟩
    rfl
  have hcons : ∀ x rest s, I (x :: rest) s → ∃ s', copyBody s = .next s' ∧ I rest s' := by
    rintro ⟨a, d⟩ rest ⟨⟨m', l'⟩, cur⟩ ⟨rfl, copied, ns', hos, ho', hch, hval⟩
    obtain ⟨m'', l'', ns'', he, ho'', hch', hval'⟩ := pushBack_does ho' d
    refine ⟨((m'', l''), first rest), ?_, rfl, copied ++ [(a, d)], ns'', ?_, ho'', hch.trans hch', ?_⟩
    · have hfirst : m'.heap a = some ⟨d, last copied, first rest⟩ := hcell hos hch
      have hpush : pushBack m' l' d = some (m'', l'') := he
      have hnext : m''.heap a = some ⟨d, last copied, first rest⟩ := hcell hos (hch.trans hch')
      simp [copyBody, hfirst, hpush, hnext]
    · simp [hos]
    · simp [hval', hval]
  have hi : I os ((m, l), other.head) := ⟨ho.head, [], ns, rfl, h, Changes.refl m ns, by simp⟩
  obtain ⟨⟨⟨m', l'⟩, cur⟩, hrun, -, copied, ns', hos, ho', hch, hval⟩ :=
    Loop.run_traverse hnil hcons hi (Nat.lt_succ_of_le ho.length_le)
  rw [List.append_nil] at hos
  refine ⟨m', l', ns', ?_, ho', hch, by rw [hval, hos]⟩
  simp only [copyFrom, hrun]
  rfl

end

/-! ## One sequence for each object -/

abbrev Sequences (T : Type) := Nat → Option (List T)

/-- `none`: a call on an object that is not alive, or that its precondition excludes. -/
def Sequences.step (A : Sequences T) : Call T → Option (Sequences T)
  | .construct x => if (A x).isNone then some (Function.update A x (some [])) else none
  | .destroy x => (A x).map fun _ => Function.update A x none
  | .pushFront x val => (A x).map fun seq => Function.update A x (some (val :: seq))
  | .pushBack x val => (A x).map fun seq => Function.update A x (some (seq ++ [val]))
  | .popFront x => (A x).bind fun seq =>
    if seq.length = 0 then none else some (Function.update A x (some seq.tail))
  | .popBack x => (A x).bind fun seq =>
    if seq.length = 0 then none else some (Function.update A x (some seq.dropLast))
  | .insertAt x pos val => (A x).bind fun seq =>
    if pos ≤ seq.length then some (Function.update A x (some (seq.take pos ++ val :: seq.drop pos))) else none
  | .erase x pos => (A x).bind fun seq =>
    if pos < seq.length then some (Function.update A x (some (seq.eraseIdx pos))) else none
  | .copyConstruct x other => (A other).bind fun seq =>
    if (A x).isNone then some (Function.update A x (some seq)) else none
  | .copyAssign x other => (A other).bind fun seq => (A x).map fun _ => Function.update A x (some seq)
  | .moveConstruct x other => (A other).bind fun seq =>
    if (A x).isNone then some (Function.update (Function.update A x (some seq)) other (some [])) else none
  | .moveAssign x other => (A other).bind fun seq =>
    if x = other then some A
    else (A x).map fun _ => Function.update (Function.update A x (some seq)) other (some [])

def sequences (T : Type) : Machine (Sequences T) (Call T) Unit where
  init := fun _ => none
  step A c := (A.step c).map fun A => (A, ())

/-! ## The store -/

/-- Every object owns its nodes, and no two share one. -/
structure Rep (s : Store T) (nodes : Nat → List (Nat × T)) (A : Sequences T) : Prop where
  live : ∀ x, A x = (s.lists x).map fun _ => values (nodes x)
  owned : ∀ x l, s.lists x = some l → Owned s.mem l (nodes x)
  unshared : ∀ x y lx ly, s.lists x = some lx → s.lists y = some ly → x ≠ y →
    ∀ a ∈ addrs (nodes x), a ∉ addrs (nodes y)

theorem rep_init : Rep (doublyLinkedLists T).init (fun _ => []) (sequences T).init where
  live := fun _ => rfl
  owned := by simp [doublyLinkedLists]
  unshared := by simp

/-- What one object does leaves the others what they own. -/
theorem Owned.frame {m m' : Memory T} {l : DoublyLinkedList} {ns os os' : List (Nat × T)} (h : Owned m l ns)
    (hch : Changes m os m' os') (hdis : ∀ a ∈ addrs ns, a ∉ addrs os) : Owned m' l ns where
  seg := h.seg.frame fun x hx =>
    hch.frame x.1 (h.fresh _ (List.mem_map_of_mem hx)) (hdis _ (List.mem_map_of_mem hx))
  head := h.head
  tail := h.tail
  size := h.size
  nodup := h.nodup
  fresh := fun a ha => Nat.lt_of_lt_of_le (h.fresh a ha) hch.mono

/-- Where a list was before `x` took that of `other`. -/
theorem origin_inj {x other y z : Nat} (hy : y ≠ other) (hz : z ≠ other)
    (h : (if y = x then other else y) = if z = x then other else z) : y = z := by
  by_cases hyx : y = x
  · rw [if_pos hyx] at h
    by_cases hzx : z = x
    · exact hyx.trans hzx.symm
    · rw [if_neg hzx] at h
      exact absurd h.symm hz
  · rw [if_neg hyx] at h
    by_cases hzx : z = x
    · rw [if_pos hzx] at h
      exact absurd h hy
    · rwa [if_neg hzx] at h

namespace Rep

variable {s : Store T} {nodes : Nat → List (Nat × T)} {A : Sequences T} (hr : Rep s nodes A)

include hr

theorem alive {x : Nat} {seq : List T} (hx : A x = some seq) :
    ∃ l, s.lists x = some l ∧ values (nodes x) = seq := by
  rw [hr.live] at hx
  exact Option.map_eq_some_iff.mp hx

theorem dead {x : Nat} (hx : A x = none) : s.lists x = none := by
  rw [hr.live] at hx
  exact Option.map_eq_none_iff.mp hx

/-- The object `x` becomes `l'`, with the nodes `ns'`, if it did not exist or by changing what it owned. -/
theorem set {x : Nat} {m' : Memory T} {l' : DoublyLinkedList} {os ns' : List (Nat × T)} (ho : Owned m' l' ns')
    (hos : ∀ y ly, s.lists y = some ly → y ≠ x → ∀ a ∈ addrs (nodes y), a ∉ addrs os)
    (hch : Changes s.mem os m' ns') :
    Rep ⟨m', Function.update s.lists x (some l')⟩ (Function.update nodes x ns')
      (Function.update A x (some (values ns'))) := by
  have hnew : ∀ y ly, s.lists y = some ly → y ≠ x → ∀ a ∈ addrs ns', a ∉ addrs (nodes y) := by
    intro y ly hy hne a ha hay
    rcases hch.addrs a ha with h | h
    · exact hos y ly hy hne a hay h
    · exact Nat.not_lt_of_le h ((hr.owned y ly hy).fresh a hay)
  constructor
  · intro y
    by_cases hy : y = x
    · subst hy
      simp
    · simp [Function.update_of_ne hy, hr.live]
  · intro y ly hly
    dsimp only at hly
    by_cases hy : y = x
    · subst hy
      rw [Function.update_self] at hly ⊢
      cases hly
      exact ho
    · rw [Function.update_of_ne hy] at hly ⊢
      exact (hr.owned y ly hly).frame hch (hos y ly hly hy)
  · intro y z ly lz hly hlz hne a
    dsimp only at hly hlz
    by_cases hy : y = x
    · subst hy
      rw [Function.update_of_ne (Ne.symm hne)] at hlz ⊢
      rw [Function.update_self]
      exact hnew z lz hlz (Ne.symm hne) a
    · rw [Function.update_of_ne hy] at hly ⊢
      by_cases hz : z = x
      · subst hz
        rw [Function.update_self]
        exact fun ha ha' => hnew y ly hly hy a ha' ha
      · rw [Function.update_of_ne hz] at hlz ⊢
        exact hr.unshared y z ly lz hly hlz hne a

theorem on {x : Nat} {seq seq' : List T} (hx : A x = some seq)
    {f : Memory T → DoublyLinkedList → Option (Memory T × DoublyLinkedList)}
    (hf : ∀ l, s.lists x = some l → values (nodes x) = seq → Does s.mem (nodes x) (f s.mem l) seq') :
    ∃ s' nodes' l', s.on x f = some s' ∧ s'.lists = Function.update s.lists x (some l') ∧
      Rep s' nodes' (Function.update A x (some seq')) := by
  obtain ⟨l, hl, hseq⟩ := hr.alive hx
  obtain ⟨m', l', ns', he, ho, hch, rfl⟩ := hf l hl hseq
  refine ⟨_, _, l', ?_, rfl, hr.set (x := x) ho (fun y ly hy hne => hr.unshared y x ly l hy hl hne) hch⟩
  simp [Store.on, hl, he]

theorem on_of_owned (f : Memory T → DoublyLinkedList → Option (Memory T × DoublyLinkedList)) {x : Nat}
    {seq seq' : List T} (hx : A x = some seq)
    (hf : ∀ l ns, Owned s.mem l ns → values ns = seq → Does s.mem ns (f s.mem l) seq') :
    ∃ s' nodes', s.on x f = some s' ∧ Rep s' nodes' (Function.update A x (some seq')) := by
  obtain ⟨s', nodes', l', he, -, hr'⟩ := hr.on hx fun l hl hseq => hf l (nodes x) (hr.owned x l hl) hseq
  exact ⟨s', nodes', he, hr'⟩

/-- `x` is empty and takes over a copy of `other`. -/
theorem copy {x other : Nat} (hne : x ≠ other) {seq : List T} (hx : A x = some []) (ho : A other = some seq) :
    ∃ o s' nodes', s.lists other = some o ∧ (s.on x fun m l => copyFrom m l o) = some s' ∧
      Rep s' nodes' (Function.update A x (some seq)) := by
  obtain ⟨o, hlo, rfl⟩ := hr.alive ho
  have hcopy : ∀ l, s.lists x = some l → values (nodes x) = [] →
      Does s.mem (nodes x) (copyFrom s.mem l o) (values (nodes other)) := by
    intro l hl hseq
    have hcopy :=
      copyFrom_does (hr.owned x l hl) (hr.owned other o hlo) (hr.unshared other x o l hlo hl (Ne.symm hne))
    rwa [hseq, List.nil_append] at hcopy
  obtain ⟨s', nodes', l', he, -, hr'⟩ := hr.on hx (f := fun m l => copyFrom m l o) hcopy
  exact ⟨o, s', nodes', hlo, he, hr'⟩

theorem construct {x : Nat} (hx : A x = none) :
    ∃ nodes', s.construct x = some { s with lists := Function.update s.lists x (some {}) } ∧
      Rep { s with lists := Function.update s.lists x (some {}) } nodes' (Function.update A x (some [])) := by
  have ho : Owned s.mem {} [] := ⟨trivial, rfl, rfl, rfl, List.nodup_nil, by simp⟩
  refine ⟨Function.update nodes x [], ?_, ?_⟩
  · simp [Store.construct, hr.dead hx]
  · exact hr.set ho (by simp) (Changes.refl s.mem [])

omit hr in
/-- Whoever owned a node before, one object owns it now. -/
theorem origin_of_steal {x other y a : Nat} {o ly : DoublyLinkedList} (ho : s.lists other = some o)
    (hly : Function.update (Function.update s.lists x (some o)) other (some {}) y = some ly)
    (ha : a ∈ addrs (Function.update (Function.update nodes x (nodes other)) other [] y)) :
    y ≠ other ∧ ∃ l, s.lists (if y = x then other else y) = some l ∧
      a ∈ addrs (nodes (if y = x then other else y)) := by
  by_cases hy : y = other
  · subst hy
    simp at ha
  · rw [Function.update_of_ne hy] at hly ha
    by_cases hyx : y = x
    · subst hyx
      rw [Function.update_self] at ha
      exact ⟨hy, o, by rwa [if_pos rfl], by rwa [if_pos rfl]⟩
    · rw [Function.update_of_ne hyx] at hly ha
      exact ⟨hy, ly, by rwa [if_neg hyx], by rwa [if_neg hyx]⟩

theorem steal {x other : Nat} (hne : x ≠ other) {seq : List T} (ho : A other = some seq) :
    ∃ s' nodes', s.steal x other = some s' ∧
      Rep s' nodes' (Function.update (Function.update A x (some seq)) other (some [])) := by
  obtain ⟨o, hlo, rfl⟩ := hr.alive ho
  refine ⟨_, Function.update (Function.update nodes x (nodes other)) other [], by simp only [Store.steal, hlo]; rfl,
    ?_⟩
  constructor
  · intro y
    by_cases hy : y = other
    · subst hy
      simp
    · by_cases hyx : y = x
      · subst hyx
        simp [Function.update_of_ne hy]
      · simp [Function.update_of_ne hy, Function.update_of_ne hyx, hr.live]
  · intro y ly hly
    dsimp only at hly
    by_cases hy : y = other
    · subst hy
      rw [Function.update_self] at hly ⊢
      cases hly
      exact ⟨trivial, rfl, rfl, rfl, List.nodup_nil, by simp⟩
    · rw [Function.update_of_ne hy] at hly ⊢
      by_cases hyx : y = x
      · subst hyx
        rw [Function.update_self] at hly ⊢
        cases hly
        exact hr.owned other o hlo
      · rw [Function.update_of_ne hyx] at hly ⊢
        exact hr.owned y ly hly
  · intro y z ly lz hly hlz hyz a ha ha'
    obtain ⟨hy, l₁, hl₁, ha⟩ := origin_of_steal hlo hly ha
    obtain ⟨hz, l₂, hl₂, ha'⟩ := origin_of_steal hlo hlz ha'
    exact hr.unshared _ _ l₁ l₂ hl₁ hl₂ (fun heq => hyz (origin_inj hy hz heq)) a ha ha'

theorem remove (x : Nat) :
    Rep { s with lists := Function.update s.lists x none } nodes (Function.update A x none) := by
  have hold : ∀ y l, Function.update s.lists x none y = some l → s.lists y = some l := by
    intro y l h
    by_cases hy : y = x
    · subst hy
      simp at h
    · rwa [Function.update_of_ne hy] at h
  constructor
  · intro y
    by_cases hy : y = x
    · subst hy
      simp
    · simp [Function.update_of_ne hy, hr.live]
  · exact fun y l hl => hr.owned y l (hold y l hl)
  · exact fun y z ly lz hly hlz => hr.unshared y z ly lz (hold y ly hly) (hold z lz hlz)

/-! ### Calls with two objects -/

variable {x other : Nat} {seq seq' : List T}

theorem beside (hx : A x = none) (ho : A other = some seq) : x ≠ other ∧ ∃ nodes',
    s.construct x = some { s with lists := Function.update s.lists x (some {}) } ∧
      Rep { s with lists := Function.update s.lists x (some {}) } nodes' (Function.update A x (some [])) ∧
      Function.update A x (some []) other = some seq := by
  have hne : x ≠ other := by
    intro heq
    rw [← heq, hx] at ho
    cases ho
  obtain ⟨nodes', he, hr'⟩ := hr.construct hx
  exact ⟨hne, nodes', he, hr', (Function.update_of_ne (Ne.symm hne) _ _).trans ho⟩

theorem copyConstruct (hx : A x = none) (ho : A other = some seq) : ∃ s' nodes',
    s.step (.copyConstruct x other) = some s' ∧ Rep s' nodes' (Function.update A x (some seq)) := by
  obtain ⟨hne, nodes₁, he, hr₁, ho⟩ := hr.beside hx ho
  obtain ⟨o, s₂, nodes₂, hlo, he₂, hr₂⟩ := hr₁.copy hne (Function.update_self ..) ho
  rw [Function.update_idem] at hr₂
  refine ⟨s₂, nodes₂, ?_, hr₂⟩
  dsimp only at hlo
  simp [Store.step, he, hlo, he₂]

theorem moveConstruct (hx : A x = none) (ho : A other = some seq) : ∃ s' nodes',
    s.step (.moveConstruct x other) = some s' ∧
      Rep s' nodes' (Function.update (Function.update A x (some seq)) other (some [])) := by
  obtain ⟨o, hlo, -⟩ := hr.alive ho
  obtain ⟨hne, nodes₁, he, hr₁, ho⟩ := hr.beside hx ho
  obtain ⟨s₂, nodes₂, he₂, hr₂⟩ := hr₁.steal hne ho
  rw [Function.update_idem] at hr₂
  refine ⟨s₂, nodes₂, ?_, hr₂⟩
  simp [Store.step, hlo, he, he₂]

/-- `x` is cleared before it takes over what `other` has. -/
theorem cleared (hne : x ≠ other) (hx : A x = some seq') (ho : A other = some seq) : ∃ s' nodes' l',
    s.on x clear = some s' ∧ s'.lists = Function.update s.lists x (some l') ∧
      Rep s' nodes' (Function.update A x (some [])) ∧ Function.update A x (some []) other = some seq := by
  obtain ⟨s', nodes', l', he, hls, hr'⟩ := hr.on hx fun l hl _ => clear_does (hr.owned x l hl)
  exact ⟨s', nodes', l', he, hls, hr', (Function.update_of_ne (Ne.symm hne) _ _).trans ho⟩

theorem copyAssign (hx : A x = some seq') (ho : A other = some seq) : ∃ s' nodes',
    s.step (.copyAssign x other) = some s' ∧ Rep s' nodes' (Function.update A x (some seq)) := by
  obtain ⟨o, hlo, -⟩ := hr.alive ho
  by_cases hne : x = other
  · subst hne
    refine ⟨s, nodes, by simp [Store.step, hlo], ?_⟩
    rwa [← ho, Function.update_eq_self]
  · obtain ⟨s₁, nodes₁, l', he, hls, hr₁, ho⟩ := hr.cleared hne hx ho
    obtain ⟨o', s₂, nodes₂, hlo', he₂, hr₂⟩ := hr₁.copy hne (Function.update_self ..) ho
    rw [hls, Function.update_of_ne (Ne.symm hne), hlo] at hlo'
    cases hlo'
    rw [Function.update_idem] at hr₂
    refine ⟨s₂, nodes₂, ?_, hr₂⟩
    simp [Store.step, hlo, hne, he, he₂]

theorem moveAssign (hne : x ≠ other) (hx : A x = some seq') (ho : A other = some seq) : ∃ s' nodes',
    s.step (.moveAssign x other) = some s' ∧
      Rep s' nodes' (Function.update (Function.update A x (some seq)) other (some [])) := by
  obtain ⟨o, hlo, -⟩ := hr.alive ho
  obtain ⟨s₁, nodes₁, l', he, -, hr₁, ho⟩ := hr.cleared hne hx ho
  obtain ⟨s₂, nodes₂, he₂, hr₂⟩ := hr₁.steal hne ho
  rw [Function.update_idem] at hr₂
  refine ⟨s₂, nodes₂, ?_, hr₂⟩
  simp [Store.step, hlo, hne, he, he₂]

end Rep

/-! ## Every call -/

theorem bind_ite_some {β γ : Type} {o : Option β} {p : β → Prop} [DecidablePred p] {f : β → γ} {c : γ}
    (h : (o.bind fun b => if p b then some (f b) else none) = some c) : ∃ b, o = some b ∧ p b ∧ f b = c := by
  obtain ⟨b, ho, h⟩ := Option.bind_eq_some_iff.mp h
  obtain ⟨hp, h⟩ := Option.ite_none_right_eq_some.mp h
  exact ⟨b, ho, hp, Option.some.inj h⟩

theorem bind_ite_none {β γ : Type} {o : Option β} {p : β → Prop} [DecidablePred p] {f : β → γ} {c : γ}
    (h : (o.bind fun b => if p b then none else some (f b)) = some c) : ∃ b, o = some b ∧ ¬ p b ∧ f b = c := by
  obtain ⟨b, ho, h⟩ := Option.bind_eq_some_iff.mp h
  obtain ⟨hp, h⟩ := Option.ite_none_left_eq_some.mp h
  exact ⟨b, ho, hp, Option.some.inj h⟩

theorem rep_step {s : Store T} {nodes : Nat → List (Nat × T)} {A A' : Sequences T} (hr : Rep s nodes A) {c : Call T}
    (hc : A.step c = some A') : ∃ s' nodes', s.step c = some s' ∧ Rep s' nodes' A' := by
  cases c with
  | construct x =>
    simp only [Sequences.step, Option.isNone_iff_eq_none] at hc
    obtain ⟨hx, hc⟩ := Option.ite_none_right_eq_some.mp hc
    cases hc
    obtain ⟨nodes', he, hr'⟩ := hr.construct hx
    exact ⟨_, nodes', he, hr'⟩
  | destroy x =>
    obtain ⟨seq, hx, rfl⟩ := Option.map_eq_some_iff.mp hc
    obtain ⟨s', nodes', he, hr'⟩ := hr.on_of_owned clear hx fun l ns ho _ => clear_does ho
    refine ⟨_, nodes', by simp only [Store.step, he]; rfl, ?_⟩
    simpa using hr'.remove x
  | pushFront x val =>
    obtain ⟨seq, hx, rfl⟩ := Option.map_eq_some_iff.mp hc
    apply hr.on_of_owned (fun m l => DoublyLinkedList.pushFront m l val) hx
    rintro l ns ho rfl
    exact pushFront_does ho val
  | pushBack x val =>
    obtain ⟨seq, hx, rfl⟩ := Option.map_eq_some_iff.mp hc
    apply hr.on_of_owned (fun m l => DoublyLinkedList.pushBack m l val) hx
    rintro l ns ho rfl
    exact pushBack_does ho val
  | popFront x =>
    obtain ⟨seq, hx, hlen, rfl⟩ := bind_ite_none hc
    apply hr.on_of_owned DoublyLinkedList.popFront hx
    rintro l ns ho rfl
    cases ns with
    | nil => exact absurd rfl hlen
    | cons y ns => exact popFront_does ho
  | popBack x =>
    obtain ⟨seq, hx, hlen, rfl⟩ := bind_ite_none hc
    apply hr.on_of_owned DoublyLinkedList.popBack hx
    rintro l ns ho rfl
    rcases List.eq_nil_or_concat ns with rfl | ⟨ns, y, rfl⟩
    · exact absurd rfl hlen
    · rw [List.concat_eq_append] at ho ⊢
      have hval : (values (ns ++ [y])).dropLast = values ns := by simp
      rw [hval]
      exact popBack_does ho
  | insertAt x pos val =>
    obtain ⟨seq, hx, hpos, rfl⟩ := bind_ite_some hc
    apply hr.on_of_owned (fun m l => DoublyLinkedList.insertAt m l pos val) hx
    rintro l ns ho rfl
    exact insertAt_does ho (by simpa [values] using hpos) val
  | erase x pos =>
    obtain ⟨seq, hx, hpos, rfl⟩ := bind_ite_some hc
    apply hr.on_of_owned (fun m l => DoublyLinkedList.erase m l pos) hx
    rintro l ns ho rfl
    exact erase_does ho (by simpa [values] using hpos)
  | copyConstruct x other =>
    obtain ⟨seq, ho, hx, rfl⟩ := bind_ite_some hc
    exact hr.copyConstruct (Option.isNone_iff_eq_none.mp hx) ho
  | copyAssign x other =>
    obtain ⟨seq, ho, hc⟩ := Option.bind_eq_some_iff.mp hc
    obtain ⟨seq', hx, rfl⟩ := Option.map_eq_some_iff.mp hc
    exact hr.copyAssign hx ho
  | moveConstruct x other =>
    obtain ⟨seq, ho, hx, rfl⟩ := bind_ite_some hc
    exact hr.moveConstruct (Option.isNone_iff_eq_none.mp hx) ho
  | moveAssign x other =>
    obtain ⟨seq, ho, hc⟩ := Option.bind_eq_some_iff.mp hc
    by_cases hne : x = other
    · rw [if_pos hne] at hc
      cases hc
      obtain ⟨o, hlo, -⟩ := hr.alive ho
      exact ⟨s, nodes, by simp [Store.step, hlo, hne], hr⟩
    · rw [if_neg hne] at hc
      obtain ⟨seq', hx, rfl⟩ := Option.map_eq_some_iff.mp hc
      exact hr.moveAssign hne hx ho

theorem doublyLinkedLists_refines :
    (doublyLinkedLists T).Refines (sequences T) fun s A => ∃ nodes, Rep s nodes A where
  init := ⟨_, rep_init⟩
  step := by
    intro s A c A' o ⟨nodes, hr⟩ hc
    obtain ⟨A'', hstep, he⟩ := Option.map_eq_some_iff.mp hc
    cases he
    obtain ⟨s', nodes', hs, hr'⟩ := rep_step hr hstep
    exact ⟨s', congrArg (Option.map _) hs, nodes', hr'⟩

/-- What can be seen of the nodes `ns` by following the pointers of an object. -/
structure Represents (heap : Heap T) (l : DoublyLinkedList) (ns : List (Nat × T)) : Prop where
  forward : Path Cell.next heap l.head ns none
  backward : Path Cell.prev heap l.tail ns.reverse none
  headPrev : ∀ a, l.head = some a → ∃ n, heap a = some n ∧ n.prev = none
  tailNext : ∀ a, l.tail = some a → ∃ n, heap a = some n ∧ n.next = none
  headNull : l.head = none ↔ ns = []
  tailNull : l.tail = none ↔ ns = []
  size : l.size = ns.length
  nodup : (addrs ns).Nodup

theorem Owned.represents {m : Memory T} {l : DoublyLinkedList} {ns : List (Nat × T)} (h : Owned m l ns) :
    Represents m.heap l ns where
  forward := by
    have hf := h.seg.forward
    rwa [Option.or_none, ← h.head] at hf
  backward := by
    have hb := h.seg.backward
    rwa [Option.or_none, ← h.tail] at hb
  headPrev := by
    intro a ha
    rw [h.head] at ha
    cases ns with
    | nil => cases ha
    | cons x ns =>
      cases ha
      exact ⟨_, h.seg.1, rfl⟩
  tailNext := by
    intro a ha
    rw [h.tail] at ha
    rcases List.eq_nil_or_concat ns with rfl | ⟨ns, x, rfl⟩
    · cases ha
    · obtain ⟨hseg⟩ := h
      rw [List.concat_eq_append] at ha hseg
      rw [last_snoc] at ha
      cases ha
      obtain ⟨-, hc, -⟩ := (seg_middle _ _ _ _ _).mp hseg
      exact ⟨_, hc, rfl⟩
  headNull := by
    rw [h.head]
    cases ns <;> simp
  tailNull := by rw [h.tail, last_eq_none]
  size := h.size
  nodup := h.nodup

/-- **The lists are their sequences**, after any calls that respect the preconditions. -/
theorem sequences_exec {cs : List (Call T)} {A : Sequences T} (hA : (sequences T).exec cs = some A) :
    ∃ s, (doublyLinkedLists T).exec cs = some s ∧ ∃ nodes : Nat → List (Nat × T),
      (∀ x, A x = (s.lists x).map fun _ => values (nodes x)) ∧
      (∀ x l, s.lists x = some l → Represents s.mem.heap l (nodes x)) ∧
      ∀ x y lx ly, s.lists x = some lx → s.lists y = some ly → x ≠ y →
        ∀ a ∈ addrs (nodes x), a ∉ addrs (nodes y) := by
  obtain ⟨s, he, nodes, hr⟩ := doublyLinkedLists_refines.exec hA
  exact ⟨s, he, nodes, hr.live, fun x l hl => (hr.owned x l hl).represents, hr.unshared⟩

end

/-- Two lists that are edited at both ends and in the middle, copied, moved and assigned to themselves. -/
theorem sequences_exec_copies : ∃ s, (doublyLinkedLists Nat).exec [.construct 0, .pushBack 0 1, .pushBack 0 3,
    .insertAt 0 1 2, .pushFront 0 0, .copyConstruct 1 0, .erase 1 2, .popFront 0, .moveAssign 1 0, .copyAssign 1 1,
    .popBack 1] = some s ∧ ∃ nodes : Nat → List (Nat × Nat),
      (∀ x, (Function.update (Function.update (fun _ => none) 0 (some [])) 1 (some [1, 2]) : Sequences Nat) x =
        (s.lists x).map fun _ => values (nodes x)) ∧
      (∀ x l, s.lists x = some l → Represents s.mem.heap l (nodes x)) ∧
      ∀ x y lx ly, s.lists x = some lx → s.lists y = some ly → x ≠ y →
        ∀ a ∈ addrs (nodes x), a ∉ addrs (nodes y) := by
  apply sequences_exec
  simp only [Machine.exec, Machine.execFrom, sequences, Sequences.step]
  simp
  funext x
  by_cases h₀ : x = 0
  · simp [h₀]
  · by_cases h₁ : x = 1 <;> simp [h₀, h₁]

end Playground.DoublyLinkedList
