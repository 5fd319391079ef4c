import Playground.Lib.Chain
import Playground.MemoryPool

/-!
# The free blocks and the held blocks partition the pool

The links live in the blocks themselves. They are read only along the free
list, and clients write only to blocks that are not on it.
-/

namespace Playground.MemoryPool

section
variable {β : Type}

def FreeList (m : MemoryPool β) (free : List Nat) : Prop := Chain (linkAt m.pool) m.freeList free

structure Inv (n : Nat) (s : Clients β) (free : List Nat) : Prop where
  freeList : FreeList s.pool free
  live : ∀ p ∈ s.held, ∃ bytes, s.pool.pool[p]? = some (.storage bytes)
  partition : (free ++ s.held).Perm (List.range n)
  allocated : s.pool.allocated = s.held.length
  size : s.pool.pool.length = n

/-- The same when constructors have thrown: the blocks `lost` are neither free nor held, and counted. -/
structure Leaky (n : Nat) (s : Clients β) (free lost : List Nat) : Prop where
  freeList : FreeList s.pool free
  live : ∀ p ∈ s.held, ∃ bytes, s.pool.pool[p]? = some (.storage bytes)
  partition : (free ++ (s.held ++ lost)).Perm (List.range n)
  allocated : s.pool.allocated = s.held.length + lost.length
  size : s.pool.pool.length = n

theorem Inv.leaky {n : Nat} {s : Clients β} {free : List Nat} (h : Inv n s free) : Leaky n s free [] :=
  ⟨h.freeList, h.live, by simpa using h.partition, h.allocated, h.size⟩

theorem Leaky.inv {n : Nat} {s : Clients β} {free : List Nat} (h : Leaky n s free []) : Inv n s free :=
  ⟨h.freeList, h.live, by simpa using h.partition, h.allocated, h.size⟩

/-! ## Blocks -/

theorem linkAt_set_ne {pool : List (Block β)} {p q : Nat} (h : q ≠ p) (b : Block β) :
    linkAt (pool.set p b) q = linkAt pool q := by
  simp [linkAt, List.getElem?_set_ne h.symm]

theorem linkAt_set_next {pool : List (Block β)} {p : Nat} (h : p < pool.length) (x : Option Nat) :
    linkAt (pool.set p (.next x)) p = some x := by
  simp [linkAt, h]

theorem writeAt_of_lt {pool : List (Block β)} {p : Nat} (h : p < pool.length) (b : Block β) :
    writeAt pool p b = some (pool.set p b) := if_pos h

theorem length_writeAt {pool pool' : List (Block β)} {p : Nat} {b : Block β} (h : writeAt pool p b = some pool') :
    p < pool.length ∧ pool'.length = pool.length := by
  unfold writeAt at h
  split at h <;> rename_i hp
  · obtain rfl := Option.some.inj h
    exact ⟨hp, List.length_set⟩
  · cases h

theorem length_chainBlocks {n : Nat} {pool pool' : List (Block β)} (h : chainBlocks n pool = some pool') :
    pool'.length = pool.length := by
  induction n generalizing pool' with
  | zero => rw [Option.some.inj h]
  | succ n ih =>
    obtain ⟨pool₁, h₁, h⟩ := Option.bind_eq_some_iff.mp h
    rw [(length_writeAt h).2, ih h₁]

theorem chainBlocks_spec {n : Nat} {pool : List (Block β)} (hn : n ≤ pool.length) :
    ∃ pool', chainBlocks n pool = some pool' ∧ pool'.length = pool.length ∧
      ∀ i < n, linkAt pool' i = some (some (i + 1)) := by
  induction n with
  | zero => exact ⟨pool, rfl, rfl, fun i hi => absurd hi (Nat.not_lt_zero i)⟩
  | succ n ih =>
    obtain ⟨pool', he, hlen, hlink⟩ := ih (Nat.le_of_succ_le hn)
    have hlt : n < pool'.length := by rw [hlen]; exact hn
    refine ⟨pool'.set n (.next (some (n + 1))), ?_, by rw [List.length_set, hlen], fun i hi => ?_⟩
    · simp only [chainBlocks, he, Option.bind_eq_bind, Option.bind_some, writeAt_of_lt hlt]
    · by_cases h : i = n
      · subst h
        exact linkAt_set_next hlt _
      · rw [linkAt_set_ne h]
        exact hlink i (by omega)

/-! ## The constructor -/

theorem inv_construct {sizeofBlock n : Nat} (hs : 0 < sizeofBlock) (hn : 0 < n) (hfit : sizeofBlock * n < 2 ^ 64) :
    ∃ pool : MemoryPool β, construct sizeofBlock n = some pool ∧ Inv n (memoryPool pool).init (List.range n) := by
  obtain ⟨n, rfl⟩ := Nat.exists_eq_add_one.mpr hn
  have hsize : sizeofBlock * (n + 1) % 2 ^ 64 / sizeofBlock = n + 1 := by
    rw [Nat.mod_eq_of_lt hfit, Nat.mul_div_cancel_left _ hs]
  have hle : n ≤ (List.replicate (n + 1) (.uninit : Block β)).length := by simp
  obtain ⟨pool, he, hlen, hlink⟩ := chainBlocks_spec hle
  rw [List.length_replicate] at hlen
  have hlt : n < pool.length := by omega
  refine ⟨⟨pool.set n (.next none), some 0, 0⟩, ?_, ?_⟩
  · simp only [construct, hsize, Nat.add_sub_cancel, he, writeAt_of_lt hlt, Option.bind_eq_bind, Option.bind_some]
  · constructor
    · rw [List.range_eq_range']
      apply Chain.of_range' 0
      · intro i _ hi
        rw [Nat.zero_add] at hi
        exact (linkAt_set_ne (Nat.ne_of_lt hi) _).trans (hlink i hi)
      · rw [Nat.zero_add]
        exact linkAt_set_next hlt none
    · simp [memoryPool]
    · simp [memoryPool]
    · rfl
    · simp [memoryPool, hlen]

/-- Where the size wraps around, the last link lies outside the memory that was allocated. -/
theorem construct_fault {sizeofBlock n : Nat} (hn : 0 < n) (h : 2 ^ 64 ≤ sizeofBlock * n) :
    (construct sizeofBlock n : Option (MemoryPool β)) = none := by
  have hsize : sizeofBlock * n % 2 ^ 64 / sizeofBlock < n := by
    apply Nat.div_lt_of_lt_mul
    exact (Nat.mod_lt _ (by decide)).trans_le h
  rw [Option.eq_none_iff_forall_not_mem]
  intro m hm
  obtain ⟨pool, he, hm⟩ := Option.bind_eq_some_iff.mp hm
  obtain ⟨pool', he', -⟩ := Option.bind_eq_some_iff.mp hm
  have hlast := (length_writeAt he').1
  rw [length_chainBlocks he, List.length_replicate] at hlast
  omega

theorem construct_isSome_iff {sizeofBlock n : Nat} (hs : 0 < sizeofBlock) (hn : 0 < n) :
    (construct sizeofBlock n : Option (MemoryPool β)).isSome ↔ sizeofBlock * n < 2 ^ 64 := by
  constructor
  · intro h
    by_contra hwrap
    rw [construct_fault hn (Nat.le_of_not_lt hwrap)] at h
    cases h
  · intro h
    obtain ⟨pool, he, -⟩ := inv_construct (β := β) hs hn h
    rw [he]
    rfl

/-! ## Calls -/

namespace Leaky

variable {n : Nat} {s : Clients β} {free lost : List Nat} (hi : Leaky n s free lost)

include hi

theorem nodup : (free ++ (s.held ++ lost)).Nodup := hi.partition.nodup_iff.mpr List.nodup_range

theorem not_held {p : Nat} (hp : p ∈ free) : p ∉ s.held := fun h =>
  List.disjoint_of_nodup_append hi.nodup hp (List.mem_append_left _ h)

theorem lt_of_free {p : Nat} (hp : p ∈ free) : p < n :=
  List.mem_range.mp (hi.partition.subset (List.mem_append_left _ hp))

theorem lt_of_held {p : Nat} (hp : p ∈ s.held) : p < n :=
  List.mem_range.mp (hi.partition.subset (List.mem_append_right _ (List.mem_append_left _ hp)))

theorem lengths : free.length + s.held.length + lost.length = n := by
  have h := hi.partition.length_eq
  simp at h
  omega

theorem freeList_set {p : Nat} (hp : p ∉ free) (b : Block β) :
    Chain (linkAt (s.pool.pool.set p b)) s.pool.freeList free := by
  apply hi.freeList.frame
  intro q hq
  apply linkAt_set_ne
  intro heq
  subst heq
  exact hp hq

theorem allocate_null (hf : free = []) (ctor : Option β) :
    allocate s.pool ctor = some (s.pool, .returned none) := by
  subst hf
  have h : s.pool.freeList = none := hi.freeList
  simp [allocate, h]

theorem allocate_block {p : Nat} {rest : List Nat} (hf : free = p :: rest) (bytes : β) :
    ∃ next, allocate s.pool (some bytes) =
      some (⟨s.pool.pool.set p (.storage bytes), next, s.pool.allocated + 1⟩, .returned (some p)) ∧
      Leaky n ⟨⟨s.pool.pool.set p (.storage bytes), next, s.pool.allocated + 1⟩, p :: s.held⟩ rest lost := by
  subst hf
  obtain ⟨hp, next, hnext, hrest⟩ := hi.freeList
  refine ⟨next, by simp [allocate, hp, hnext], ?_⟩
  have hlt := hi.lt_of_free (p := p) (by simp)
  have hnd := hi.nodup
  constructor
  · apply Chain.frame hrest
    intro q hq
    apply linkAt_set_ne
    intro heq
    subst heq
    simp [hq] at hnd
  · intro q hq
    by_cases h : q = p
    · subst h
      exact ⟨bytes, by simp [hi.size, hlt]⟩
    · simp only [List.getElem?_set_ne (Ne.symm h)]
      exact hi.live q ((List.mem_cons.mp hq).resolve_left h)
  · exact List.perm_middle.trans hi.partition
  · simp [hi.allocated, Nat.add_right_comm]
  · simp [hi.size]

theorem allocate_throw {p : Nat} {rest : List Nat} (hf : free = p :: rest) :
    ∃ next, allocate s.pool none = some (⟨s.pool.pool, next, s.pool.allocated + 1⟩, .thrown) ∧ next ≠ some p ∧
      Leaky n ⟨⟨s.pool.pool, next, s.pool.allocated + 1⟩, s.held⟩ rest (p :: lost) := by
  subst hf
  obtain ⟨hp, next, hnext, hrest⟩ := hi.freeList
  refine ⟨next, by simp [allocate, hp, hnext], ?_, hrest, hi.live, ?_, ?_, hi.size⟩
  · rintro rfl
    cases rest with
    | nil => cases hrest
    | cons q rest =>
      obtain rfl := Option.some.inj hrest.1
      have hnd := hi.nodup
      simp at hnd
  · refine List.Perm.trans ?_ hi.partition
    rw [List.cons_append, ← List.append_assoc, ← List.append_assoc]
    exact List.perm_middle
  · simp [hi.allocated, Nat.add_assoc]

theorem deallocate_block {p : Nat} (hp : p ∈ s.held) :
    ∃ m, deallocate s.pool (some p) = some m ∧ Leaky n ⟨m, s.held.erase p⟩ (p :: free) lost := by
  obtain ⟨bytes, hb⟩ := hi.live p hp
  refine ⟨⟨s.pool.pool.set p (.next s.pool.freeList), some p, s.pool.allocated - 1⟩, by simp only [deallocate, hb],
    ?_⟩
  have hlt := hi.lt_of_held hp
  have hnf : p ∉ free := fun h => hi.not_held h hp
  have hlen := List.length_erase_of_mem hp
  have hpos := List.length_pos_of_mem hp
  constructor
  · exact ⟨rfl, s.pool.freeList, linkAt_set_next (by rw [hi.size]; exact hlt) _, hi.freeList_set hnf _⟩
  · intro q hq
    have hheld : s.held.Nodup := hi.nodup.of_append_right.of_append_left
    obtain ⟨hne, hq⟩ := hheld.mem_erase_iff.mp hq
    simp only [List.getElem?_set_ne (Ne.symm hne)]
    exact hi.live q hq
  · have herase : (p :: s.held.erase p ++ lost).Perm (s.held ++ lost) :=
      (List.perm_cons_erase hp).symm.append_right lost
    exact (List.perm_middle.symm.trans (herase.append_left free)).trans hi.partition
  · simp only [hi.allocated, hlen]
    omega
  · simp [hi.size]

theorem write {p : Nat} (hp : p ∈ s.held) (bytes : β) :
    Leaky n ⟨{ s.pool with pool := s.pool.pool.set p (.storage bytes) }, s.held⟩ free lost := by
  constructor
  · exact hi.freeList_set (fun h => hi.not_held h hp) _
  · intro q hq
    by_cases h : q = p
    · subst h
      exact ⟨bytes, by simp [hi.size, hi.lt_of_held hp]⟩
    · simp only [List.getElem?_set_ne (Ne.symm h)]
      exact hi.live q hq
  · exact hi.partition
  · exact hi.allocated
  · simp [hi.size]

theorem step (pool : MemoryPool β) {c : Call β} (hc : Uses s c) :
    ∃ s' o, (memoryPool pool).step s c = some (s', o) ∧ ∃ free' lost',
    Leaky n s' free' lost' ∧ lost'.length = lost.length + if o = .thrown then 1 else 0 := by
  cases c with
  | allocate ctor =>
    cases free with
    | nil =>
      refine ⟨s, .returned none, ?_, [], lost, hi, rfl⟩
      simp only [memoryPool, hi.allocate_null rfl]
      rfl
    | cons p rest =>
      cases ctor with
      | none =>
        obtain ⟨next, ha, -, hi'⟩ := hi.allocate_throw rfl
        refine ⟨_, .thrown, ?_, rest, p :: lost, hi', rfl⟩
        simp only [memoryPool, ha]
        rfl
      | some bytes =>
        obtain ⟨next, ha, hi'⟩ := hi.allocate_block rfl bytes
        refine ⟨_, .returned (some p), ?_, rest, lost, hi', rfl⟩
        simp only [memoryPool, ha]
        rfl
  | deallocate p =>
    cases p with
    | none => exact ⟨s, .returned none, rfl, free, lost, hi, rfl⟩
    | some p =>
      obtain ⟨m, hd, hi'⟩ := hi.deallocate_block hc
      refine ⟨_, .returned none, ?_, p :: free, lost, hi', rfl⟩
      simp only [memoryPool, hd]
      rfl
  | write p bytes => exact ⟨_, _, rfl, free, lost, hi.write hc bytes, rfl⟩

end Leaky

theorem Legal.uses {s : Clients β} {c : Call β} (h : Legal s c) : Uses s c := by
  cases c with
  | allocate _ => trivial
  | deallocate p => cases p with
    | none => trivial
    | some p => exact h
  | write p bytes => exact h

theorem not_thrown_of_some {m m' : MemoryPool β} {bytes : β} {o : Outcome}
    (h : allocate m (some bytes) = some (m', o)) : o ≠ .thrown := by
  unfold allocate at h
  cases hf : m.freeList with
  | none =>
    simp only [hf, Option.some.injEq, Prod.mk.injEq] at h
    rw [← h.2]
    simp
  | some block =>
    simp only [hf] at h
    obtain ⟨next, -, h⟩ := Option.bind_eq_some_iff.mp h
    rw [← (Prod.mk.inj (Option.some.inj h)).2]
    simp

theorem Legal.not_thrown {pool : MemoryPool β} {s s' : Clients β} {c : Call β} {o : Outcome} (hc : Legal s c)
    (hs : (memoryPool pool).step s c = some (s', o)) : o ≠ .thrown := by
  cases c with
  | allocate ctor =>
    obtain ⟨bytes, rfl⟩ := Option.ne_none_iff_exists'.mp hc
    obtain ⟨⟨m, o'⟩, ha, heq⟩ := Option.map_eq_some_iff.mp hs
    obtain ⟨-, rfl⟩ := Prod.mk.inj heq
    exact not_thrown_of_some ha
  | deallocate p =>
    cases p with
    | none =>
      simp only [memoryPool, Option.map_eq_some_iff, Prod.mk.injEq] at hs
      obtain ⟨_, -, -, rfl⟩ := hs
      simp
    | some p =>
      simp only [memoryPool, Option.map_eq_some_iff, Prod.mk.injEq] at hs
      obtain ⟨_, -, -, rfl⟩ := hs
      simp
  | write p bytes =>
    rw [← (Prod.mk.inj (Option.some.inj hs)).2]
    simp

theorem Inv.step {n : Nat} {s : Clients β} {free : List Nat} (hi : Inv n s free) (pool : MemoryPool β) {c : Call β}
    (hc : Legal s c) :
    ∃ s' o, (memoryPool pool).step s c = some (s', o) ∧ ∃ free', Inv n s' free' := by
  obtain ⟨s', o, hs, free', lost, hi', hlen⟩ := hi.leaky.step pool hc.uses
  rw [if_neg (hc.not_thrown hs)] at hlen
  obtain rfl := List.eq_nil_of_length_eq_zero hlen
  exact ⟨s', o, hs, free', hi'.inv⟩

/-! ## Every run -/

/-- A pool of `n` blocks, those its clients hold, and what the next allocation does. -/
structure Partitioned (n : Nat) (s : Clients β) (free : List Nat) : Prop where
  freeList : FreeList s.pool free
  nodup : free.Nodup
  partition : (free ++ s.held).Perm (List.range n)
  allocated : s.pool.allocated = s.held.length
  available : s.pool.allocated + free.length = n
  allocate : ∀ bytes, ∃ m p, MemoryPool.allocate s.pool (some bytes) = some (m, .returned p) ∧
    (p = none ↔ ∀ b < n, b ∈ s.held) ∧ ∀ b, p = some b → b < n ∧ b ∉ s.held

theorem Inv.partitioned {n : Nat} {s : Clients β} {free : List Nat} (hi : Inv n s free) :
    Partitioned n s free where
  freeList := hi.freeList
  nodup := hi.freeList.nodup
  partition := hi.partition
  allocated := hi.allocated
  available := by
    have h := hi.leaky.lengths
    rw [hi.allocated]
    simp only [List.length_nil] at h
    omega
  allocate := by
    intro bytes
    cases free with
    | nil =>
      refine ⟨_, _, hi.leaky.allocate_null rfl _, ?_, by simp⟩
      simp only [true_iff]
      intro b hb
      exact hi.partition.symm.subset (List.mem_range.mpr hb)
    | cons p rest =>
      obtain ⟨next, ha, -⟩ := hi.leaky.allocate_block rfl bytes
      have hlt := hi.leaky.lt_of_free (p := p) (by simp)
      have hnot := hi.leaky.not_held (p := p) (by simp)
      refine ⟨_, _, ha, ?_, ?_⟩
      · simp only [reduceCtorEq, false_iff, not_forall]
        exact ⟨p, hlt, hnot⟩
      · intro b hb
        obtain rfl := Option.some.inj hb
        exact ⟨hlt, hnot⟩

/-- **Partition of the pool**, after any calls of clients that use what they hold only. -/
theorem partitioned_exec {sizeofBlock n : Nat} (hs : 0 < sizeofBlock) (hn : 0 < n)
    (hfit : sizeofBlock * n < 2 ^ 64) :
    ∃ pool : MemoryPool β, construct sizeofBlock n = some pool ∧ ∀ cs, (memoryPool pool).Guarded Legal cs →
      ∃ s, (memoryPool pool).exec cs = some s ∧ ∃ free, Partitioned n s free := by
  obtain ⟨pool, hpool, hinit⟩ := inv_construct (β := β) hs hn hfit
  have hstep : ∀ s c, (∃ free, Inv n s free) → Legal s c →
      ∃ s' o, (memoryPool pool).step s c = some (s', o) ∧ ∃ free', Inv n s' free' :=
    fun s c ⟨_, hi⟩ hc => hi.step pool hc
  refine ⟨pool, hpool, fun cs hg => ?_⟩
  obtain ⟨s, he, free, hi⟩ := (memoryPool pool).guarded_inv ⟨_, hinit⟩ hstep cs hg
  exact ⟨s, he, free, hi.partitioned⟩

/-- A pool of two blocks that is exhausted, written over and refilled out of order. -/
theorem partitioned_exec_exhausted : ∃ pool : MemoryPool Nat, construct 8 2 = some pool ∧
    ∃ s, (memoryPool pool).exec [.allocate (some 7), .allocate (some 8), .allocate (some 9), .write 1 5,
      .deallocate (some 0), .deallocate none, .deallocate (some 1)] = some s ∧ ∃ free, Partitioned 2 s free := by
  obtain ⟨pool, hpool, h⟩ := partitioned_exec (β := Nat) (by decide : 0 < 8) (by decide : 0 < 2) (by decide)
  refine ⟨pool, hpool, h _ ?_⟩
  obtain rfl := Option.some.inj hpool
  simp [Machine.Guarded, Machine.GuardedFrom, memoryPool, allocate, deallocate, linkAt, Legal, Outcome.hold]

/-- Blocks of 8 bytes, and one more of them than would fill the address space: memory for one is allocated. -/
theorem construct_wraps :
    8 * (2 ^ 61 + 1) % 2 ^ 64 = 8 ∧ (construct 8 (2 ^ 61 + 1) : Option (MemoryPool Nat)) = none :=
  ⟨by decide, construct_fault (by decide) (by decide)⟩

end

end Playground.MemoryPool
