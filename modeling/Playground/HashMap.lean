import Playground.Lib.Binary32
import Playground.Lib.Machine

/-!
# The hash map (`stl_like/hash_map.cpp`)

Separate chaining: a vector of buckets, each a list of entries. The hash
function is any function from keys to numbers. `operator[]` returns a
reference, here the position of an entry, and the caller may write through
it. Reading a bucket that the vector does not have faults (with no buckets,
`bucket_index` divides by zero).
-/

namespace Playground.HashMap

set_option linter.dupNamespace false in
structure HashMap (K V : Type) where
  buckets : List (List (K × V))
  size : Nat := 0
  deriving DecidableEq

/-- A reference to the value of an entry. -/
structure Ref where
  bucket : Nat
  pos : Nat
  deriving DecidableEq, Repr

section
variable {K V : Type}

def maxLoadFactor : ℚ := 3 / 4

/-- `static_cast<float>(size_) / buckets_.size()`: the conversions and the division round. -/
def loadFactor (m : HashMap K V) : ℚ := Binary32.round (Binary32.round m.size / Binary32.round m.buckets.length)

def entryAt (m : HashMap K V) (ref : Ref) : Option (K × V) :=
  m.buckets[ref.bucket]?.bind fun bucket => bucket[ref.pos]?

/-- `entry.value = value`. -/
def store (m : HashMap K V) (ref : Ref) (value : V) : Option (HashMap K V) := do
  let bucket ← m.buckets[ref.bucket]?
  let entry ← bucket[ref.pos]?
  some { m with buckets := m.buckets.set ref.bucket (bucket.set ref.pos (entry.1, value)) }

/-- `buckets_[idx].emplace_back(key, value); ++size_;` -/
def emplaceBack (m : HashMap K V) (idx : Nat) (key : K) (value : V) : Option (HashMap K V) := do
  let bucket ← m.buckets[idx]?
  some { buckets := m.buckets.set idx (bucket ++ [(key, value)]), size := m.size + 1 }

def back (m : HashMap K V) (idx : Nat) : Option Ref := do
  let bucket ← m.buckets[idx]?
  if bucket.isEmpty then none else some ⟨idx, bucket.length - 1⟩

variable (hash : K → Nat)

def bucketIndex (m : HashMap K V) (key : K) : Nat := hash key % m.buckets.length

def place (newBuckets : List (List (K × V))) (entry : K × V) : List (List (K × V)) :=
  newBuckets.modify (hash entry.1 % newBuckets.length) fun bucket => bucket ++ [entry]

def rehash (m : HashMap K V) (newBucketCount : Nat) : HashMap K V :=
  let newBuckets := List.replicate newBucketCount []
  { m with buckets := m.buckets.foldl (fun bs bucket => bucket.foldl (place hash) bs) newBuckets }

variable [DecidableEq K]

/-- The loop over `buckets_[bucket_index(key)]` that looks for `key`. -/
def locate (m : HashMap K V) (key : K) : Option (Option Ref) := do
  let idx := bucketIndex hash m key
  let bucket ← m.buckets[idx]?
  some ((bucket.findIdx? fun entry => entry.1 = key).map fun pos => ⟨idx, pos⟩)

def insert (m : HashMap K V) (key : K) (value : V) : Option (HashMap K V) := do
  match ← locate hash m key with
  | some ref => store m ref value -- update
  | none =>
    let m ← emplaceBack m (bucketIndex hash m key) key value
    if loadFactor m > maxLoadFactor then some (rehash hash m (m.buckets.length * 2)) else some m

def find (m : HashMap K V) (key : K) : Option (Option V) := do
  match ← locate hash m key with
  | some ref =>
    let entry ← entryAt m ref
    some (some entry.2)
  | none => some none

def erase (m : HashMap K V) (key : K) : Option (HashMap K V × Bool) := do
  match ← locate hash m key with
  | some ref =>
    let bucket ← m.buckets[ref.bucket]?
    some ({ buckets := m.buckets.set ref.bucket (bucket.eraseIdx ref.pos), size := m.size - 1 }, true)
  | none => some (m, false)

/-- What a reference to the value of an entry refers to. -/
def valueAt (m : HashMap K V) (ref : Ref) : Option V := (entryAt m ref).map Prod.snd

def subscript [Inhabited V] (m : HashMap K V) (key : Arg Ref V K) : Option (HashMap K V × Ref) := do
  let k ← key.read (valueAt m)
  match ← locate hash m k with
  | some ref => some (m, ref)
  | none =>
    let idx := bucketIndex hash m k
    let m ← emplaceBack m idx k default
    if loadFactor m > maxLoadFactor then
      let m := rehash hash m (m.buckets.length * 2)
      -- `rehash` has freed every entry a reference could refer to, and the key is read again
      let k ← key.read fun _ => none
      match ← locate hash m k with
      | some ref => some (m, ref)
      | none => (back m (bucketIndex hash m k)).map fun ref => (m, ref)
    else (back m idx).map fun ref => (m, ref)

/-- A call whose arguments are objects of the caller; `subscript` may write a value through the reference. -/
inductive Call (K V : Type)
  | insert (key : K) (value : V)
  | find (key : K)
  | erase (key : K)
  | subscript (key : K) (write : Option V)
  deriving DecidableEq

/-- What a call returns; for a reference, the value it refers to before the write. -/
inductive Result (V : Type)
  | none
  | found (value : Option V)
  | erased (found : Bool)
  | value (value : V)
  deriving DecidableEq

def step [Inhabited V] (m : HashMap K V) : Call K V → Option (HashMap K V × Result V)
  | .insert key value => (insert hash m key value).map fun m => (m, .none)
  | .find key => (find hash m key).map fun value => (m, .found value)
  | .erase key => (erase hash m key).map fun p => (p.1, .erased p.2)
  | .subscript key write => do
    let (m, ref) ← subscript hash m (.outside key)
    let entry ← entryAt m ref
    match write with
    | some value => (store m ref value).map fun m => (m, .value entry.2)
    | none => some (m, .value entry.2)

def hashMap [Inhabited V] (initialBuckets : Nat) : Machine (HashMap K V) (Call K V) (Result V) where
  init := { buckets := List.replicate initialBuckets [] }
  step := step hash

end

end Playground.HashMap
