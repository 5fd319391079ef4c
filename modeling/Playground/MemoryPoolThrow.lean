import Playground.MemoryPoolSound

/-!
# Constructors that throw

`allocate` takes the block off the free list and counts it before it runs the
constructor. When that throws, nobody gives the block back.
-/

namespace Playground.MemoryPool

section
variable {β : Type}

/-- An allocation whose constructor throws leaves the pool as it was, and so does any number of them. -/
structure Atomic (s : Clients β) : Prop where
  unchanged : ∀ m o, allocate s.pool none = some (m, o) → m.freeList = s.pool.freeList ∧
    m.allocated = s.pool.allocated
  repeated : ∀ k s' free free', (memoryPool s.pool).execFrom s (List.replicate k (.allocate none)) = some s' →
    FreeList s.pool free → FreeList s'.pool free' → free' = free

/-- The constructors that have thrown. -/
def throws (pool : MemoryPool β) (cs : List (Call β)) : Nat :=
  ((memoryPool pool).traceFrom (memoryPool pool).init cs).countP fun p => p.2 == .thrown

theorem execFrom_exhausted {s s' : Clients β} (hf : s.pool.freeList = none) (k : Nat)
    (he : (memoryPool s.pool).execFrom s (List.replicate k (.allocate none)) = some s') : s' = s := by
  induction k with
  | zero => exact (Option.some.inj he).symm
  | succ k ih =>
    have hs : (memoryPool s.pool).step s (.allocate none) = some (s, .returned none) := by
      simp [memoryPool, allocate, hf, Outcome.hold]
    rw [List.replicate_succ, Machine.execFrom_cons, hs] at he
    exact ih he

theorem Leaky.atomic_iff {n : Nat} {s : Clients β} {free lost : List Nat} (hi : Leaky n s free lost) :
    Atomic s ↔ s.pool.freeList = none := by
  constructor
  · intro h
    cases free with
    | nil => exact hi.freeList
    | cons p rest =>
      obtain ⟨next, ha, hne, -⟩ := hi.allocate_throw rfl
      have hhead := hi.freeList.1
      exact absurd ((h.unchanged _ _ ha).1.trans hhead) hne
  · intro hf
    constructor
    · intro m o ha
      simp only [allocate, hf, Option.some.injEq, Prod.mk.injEq] at ha
      rw [← ha.1]
      exact ⟨rfl, rfl⟩
    · intro k s' free free' he h h'
      rw [execFrom_exhausted hf k he] at h'
      exact Chain.unique h' h

/-- What the pool has lost after a run. -/
structure Leaked (n thrown : Nat) (s : Clients β) : Prop where
  allocated : s.pool.allocated = s.held.length + thrown
  free : ∃ free, FreeList s.pool free ∧ free.length + s.held.length + thrown = n

theorem leaky_exec {n : Nat} {pool : MemoryPool β} {free : List Nat} (hinit : Inv n (memoryPool pool).init free)
    (cs : List (Call β)) (hg : (memoryPool pool).Guarded Uses cs) : ∃ s, (memoryPool pool).exec cs = some s ∧
      ∃ free lost, Leaky n s free lost ∧ lost.length = throws pool cs := by
  induction cs using List.reverseRecOn with
  | nil => exact ⟨_, rfl, _, [], hinit.leaky, rfl⟩
  | append_singleton cs c ih =>
    rw [Machine.guarded_snoc] at hg
    obtain ⟨s, he, free, lost, hi, hlen⟩ := ih hg.1
    obtain ⟨s', o, hs, free', lost', hi', hlen'⟩ := hi.step pool (hg.2 s he)
    refine ⟨s', (memoryPool pool).exec_snoc_of he hs, free', lost', hi', ?_⟩
    rw [throws, (memoryPool pool).traceFrom_snoc he hs, List.countP_append, List.countP_singleton, hlen',
      hlen, throws]
    simp

/-- **Allocation is not atomic** under exceptions. After any calls of clients
that use what they hold only, every constructor that threw has cost a block,
and the next one will leave the pool as it is only if there is none to take. -/
theorem atomic_iff_exhausted {sizeofBlock n : Nat} (hs : 0 < sizeofBlock) (hn : 0 < n)
    (hfit : sizeofBlock * n < 2 ^ 64) : ∃ pool : MemoryPool β, construct sizeofBlock n = some pool ∧
      ∀ cs, (memoryPool pool).Guarded Uses cs → ∃ s, (memoryPool pool).exec cs = some s ∧
        Leaked n (throws pool cs) s ∧ (Atomic s ↔ s.pool.freeList = none) := by
  obtain ⟨pool, hpool, hinit⟩ := inv_construct (β := β) hs hn hfit
  refine ⟨pool, hpool, fun cs hg => ?_⟩
  obtain ⟨s, he, free, lost, hi, hlen⟩ := leaky_exec hinit cs hg
  exact ⟨s, he, ⟨hlen ▸ hi.allocated, free, hi.freeList, hlen ▸ hi.lengths⟩, hi.atomic_iff⟩

theorem atomic_iff_exhausted_throw : ∃ pool : MemoryPool Nat, construct 8 2 = some pool ∧
    ∃ s, (memoryPool pool).exec [.allocate (some 7), .allocate none] = some s ∧
      Leaked 2 (throws pool [.allocate (some 7), .allocate none]) s ∧ (Atomic s ↔ s.pool.freeList = none) := by
  obtain ⟨pool, hpool, h⟩ := atomic_iff_exhausted (β := Nat) (by decide : 0 < 8) (by decide : 0 < 2) (by decide)
  exact ⟨pool, hpool, h _ (by simp [Machine.Guarded, Machine.GuardedFrom, Uses])⟩

/-- The only block is lost: nothing is held, and the next allocation returns null. -/
theorem throw_exhausts : ∃ pool : MemoryPool Nat, construct 8 1 = some pool ∧ ¬ Atomic (memoryPool pool).init ∧
    ∃ s, (memoryPool pool).exec [.allocate none] = some s ∧ s.held = [] ∧ s.pool.allocated = 1 ∧
      (allocate s.pool (some 7)).map Prod.snd = some (.returned none) := by
  refine ⟨_, rfl, fun h => ?_, _, rfl, rfl, rfl, rfl⟩
  exact absurd (h.unchanged _ _ rfl).2 (by decide)

end

end Playground.MemoryPool
