import Playground.Lib.Counted
import Playground.Lib.Handles
import Playground.Lib.Machine

/-!
# Shared styles (`patterns/flyweight.cpp`)

The variables `N` are `shared_ptr`s of the clients. A style is freed with its
last reference; a reference that is given up without being counted has no
meaning. The cache is searched by the key as it stands, so that its hash plays
no part.
-/

namespace Playground.Flyweight

open Handles Counted

structure CharacterStyle where
  fontFamily : String
  fontSize : Int
  bold : Bool
  italic : Bool
  deriving DecidableEq

variable {N A : Type} [DecidableEq A]

/-- The factory, its clients' variables, and the styles on the heap with their use counts. -/
structure World (N A : Type) where
  alive : Bool := true
  cache : List (CharacterStyle × A) := []
  cacheHits : Nat := 0
  styles : A → Option CharacterStyle := fun _ => none
  useCount : A → Nat := fun _ => 0
  vars : N → Option A := fun _ => none
  /-- What each variable was set to, and what the clients have got so far. -/
  values : N → Option CharacterStyle := fun _ => none
  served : List CharacterStyle := []

namespace World

def uniqueStyles (w : World N A) : Nat := w.cache.length

def retain (w : World N A) (a : A) : World N A :=
  { w with useCount := Function.update w.useCount a (w.useCount a + 1) }

def release (w : World N A) (a : A) : Option (World N A) :=
  match w.useCount a with
  | 0 => none
  | 1 => some { w with styles := Function.update w.styles a none, useCount := Function.update w.useCount a 0 }
  | count + 1 => some { w with useCount := Function.update w.useCount a count }

/-- The destructor of the factory. -/
def dropCache (w : World N A) : List (CharacterStyle × A) → Option (World N A)
  | [] => some { w with cache := [] }
  | (_, style) :: rest => do
    let w ← { w with cache := rest }.release style
    w.dropCache rest

end World

section
variable [DecidableEq N]

/-- A variable takes over a reference, and gives up the one it had. -/
def World.assign (w : World N A) (n : N) (r : Option A) (value : Option CharacterStyle) : Option (World N A) :=
  let w' := { w with vars := Function.update w.vars n r, values := Function.update w.values n value }
  match w.vars n with
  | none => some w'
  | some old => w'.release old

inductive Op (N : Type)
  | getStyle (n : N) (key : CharacterStyle)
  | copy (n m : N)
  | reset (n : N)
  | destroy

inductive Outcome
  | done
  | badAlloc

def getStyle (new : Source Unit A) (w : World N A) (n : N) (key : CharacterStyle) : Option (World N A × Outcome) :=
  match w.cache.lookup key with
  | some style => do
    let w ← ({ w with cacheHits := w.cacheHits + 1, served := w.served ++ [key] }.retain style).assign n
      (some style) (some key)
    some (w, .done)
  | none =>
    match new.pick (fun a => (w.styles a).isSome) () with
    | none => some (w, .badAlloc)
    | some style => do
      let w := { w with
        styles := Function.update w.styles style (some key)
        useCount := Function.update w.useCount style 1
        served := w.served ++ [key] }
      let w := { w.retain style with cache := (key, style) :: w.cache }
      let w ← w.assign n (some style) (some key)
      some (w, .done)

def step (new : Source Unit A) (w : World N A) : Op N → Option (World N A × Outcome)
  | .getStyle n key => if w.alive then getStyle new w n key else none
  | .copy n m => do
    let w ← ((w.vars m).elim w w.retain).assign n (w.vars m) (w.values m)
    some (w, .done)
  | .reset n => do
    let w ← w.assign n none none
    some (w, .done)
  | .destroy =>
    if w.alive then do
      let w ← { w with alive := false }.dropCache w.cache
      some (w, .done)
    else none

def factory (new : Source Unit A) : Machine (World N A) (Op N) Outcome where
  init := {}
  step := step new

end

/-! ## The invariant -/

/-- What the cache holds. -/
def base (w : World N A) (a : A) : Nat := (w.cache.map Prod.snd).count a

/-- The counts are exact, with one more reference `r` that is on its way; and the cache has all the
styles there are. -/
structure Inv [Fintype N] (w : World N A) (r : Option A) : Prop where
  exact : Exact (fun a => base w a + if r = some a then 1 else 0) w.vars w.useCount
  live : ∀ a, (w.styles a).isSome = true ↔ 0 < w.useCount a
  cached : ∀ p ∈ w.cache, w.styles p.2 = some p.1
  keys : (w.cache.map Prod.fst).Nodup
  inj : ∀ a b key, w.styles a = some key → w.styles b = some key → a = b
  values : ∀ n, (w.vars n).bind w.styles = w.values n
  complete : w.alive = true → ∀ a key, w.styles a = some key → (key, a) ∈ w.cache
  served : w.alive = true → ∀ key, key ∈ w.served ↔ key ∈ w.cache.map Prod.fst
  hits : w.alive = true → w.cacheHits + w.cache.length = w.served.length

section
variable [Fintype N] {w : World N A} {r : Option A} {a : A}

theorem Inv.retain (h : Inv w none) (ha : 0 < w.useCount a) : Inv (w.retain a) (some a) where
  exact b := by
    have hb : w.useCount b = base w b + 0 + holders w.vars b := h.exact b
    show Function.update w.useCount a (w.useCount a + 1) b = base w b + (if some a = some b then 1 else 0) +
      holders w.vars b
    by_cases hab : b = a
    · subst hab
      rw [Function.update_self, if_pos rfl]
      omega
    · rw [Function.update_of_ne hab, if_neg (by simpa using Ne.symm hab)]
      exact hb
  live b := by
    show (w.styles b).isSome = true ↔ 0 < Function.update w.useCount a (w.useCount a + 1) b
    rw [h.live]
    by_cases hab : b = a
    · subst hab
      rw [Function.update_self]
      omega
    · rw [Function.update_of_ne hab]
  cached := h.cached
  keys := h.keys
  inj := h.inj
  values := h.values
  complete := h.complete
  served := h.served
  hits := h.hits

/-- A variable takes over the reference, and what it had is on its way. -/
theorem Inv.take [DecidableEq N] (h : Inv w r) (n : N) {value : Option CharacterStyle}
    (hr : r.bind w.styles = value) :
    Inv { w with vars := Function.update w.vars n r, values := Function.update w.values n value } (w.vars n) where
  exact b := by
    have hb : w.useCount b = base w b + (if r = some b then 1 else 0) + holders w.vars b := h.exact b
    have hupdate := holders_update w.vars n r b
    show w.useCount b = base w b + (if w.vars n = some b then 1 else 0) + holders (Function.update w.vars n r) b
    omega
  live := h.live
  cached := h.cached
  keys := h.keys
  inj := h.inj
  values m := by
    show (Function.update w.vars n r m).bind w.styles = Function.update w.values n value m
    by_cases hmn : m = n
    · subst hmn
      rw [Function.update_self, Function.update_self, hr]
    · rw [Function.update_of_ne hmn, Function.update_of_ne hmn, h.values]
  complete := h.complete
  served := h.served
  hits := h.hits

/-- The last reference to a style: neither the cache nor a variable has another. -/
theorem Inv.free (h : Inv w (some a)) (hlast : w.useCount a = 1) :
    Inv { w with styles := Function.update w.styles a none, useCount := Function.update w.useCount a 0 } none := by
  have ha : w.useCount a = base w a + (if some a = some a then 1 else 0) + holders w.vars a := h.exact a
  rw [if_pos rfl] at ha
  have hbase : ∀ p ∈ w.cache, p.2 ≠ a := by
    intro p hp heq
    have : 0 < base w a := List.count_pos_iff.mpr (heq ▸ List.mem_map_of_mem hp)
    omega
  have hstyles : ∀ b key, Function.update w.styles a none b = some key → w.styles b = some key := by
    intro b key hb
    by_cases hab : b = a
    · subst hab
      rw [Function.update_self] at hb
      cases hb
    · rwa [Function.update_of_ne hab] at hb
  refine ⟨fun b => ?_, fun b => ?_, fun p hp => ?_, h.keys, fun b c key hb hc =>
    h.inj b c key (hstyles b key hb) (hstyles c key hc),
    fun n => ?_, fun hal b key hb => h.complete hal b key (hstyles b key hb), h.served, h.hits⟩
  · have hb : w.useCount b = base w b + (if some a = some b then 1 else 0) + holders w.vars b := h.exact b
    show Function.update w.useCount a 0 b = base w b + 0 + holders w.vars b
    by_cases hab : b = a
    · subst hab
      rw [Function.update_self]
      omega
    · rw [if_neg (by simpa using Ne.symm hab)] at hb
      rw [Function.update_of_ne hab, hb]
  · show (Function.update w.styles a none b).isSome = true ↔ 0 < Function.update w.useCount a 0 b
    by_cases hab : b = a
    · subst hab
      simp
    · rw [Function.update_of_ne hab, Function.update_of_ne hab]
      exact h.live b
  · show Function.update w.styles a none p.2 = some p.1
    rw [Function.update_of_ne (hbase p hp)]
    exact h.cached p hp
  · show (w.vars n).bind (Function.update w.styles a none) = w.values n
    rw [← h.values]
    cases hn : w.vars n with
    | none => rfl
    | some b =>
      have hab : b ≠ a := by
        rintro rfl
        have := holders_pos_iff.mpr ⟨n, hn⟩
        omega
      exact Function.update_of_ne hab _ _

theorem Inv.drop (h : Inv w (some a)) {count : Nat} (hcount : w.useCount a = count + 2) :
    Inv { w with useCount := Function.update w.useCount a (count + 1) } none where
  exact b := by
    have hb : w.useCount b = base w b + (if some a = some b then 1 else 0) + holders w.vars b := h.exact b
    show Function.update w.useCount a (count + 1) b = base w b + 0 + holders w.vars b
    by_cases hab : b = a
    · subst hab
      rw [if_pos rfl] at hb
      rw [Function.update_self]
      omega
    · rw [if_neg (by simpa using Ne.symm hab)] at hb
      rw [Function.update_of_ne hab, hb]
  live b := by
    show (w.styles b).isSome = true ↔ 0 < Function.update w.useCount a (count + 1) b
    rw [h.live]
    by_cases hab : b = a
    · subst hab
      rw [Function.update_self]
      omega
    · rw [Function.update_of_ne hab]
  cached := h.cached
  keys := h.keys
  inj := h.inj
  values := h.values
  complete := h.complete
  served := h.served
  hits := h.hits

theorem Inv.release (h : Inv w (some a)) : ∃ w', w.release a = some w' ∧ Inv w' none ∧ w'.alive = w.alive ∧
    w'.cache = w.cache := by
  have ha : w.useCount a = base w a + (if some a = some a then 1 else 0) + holders w.vars a := h.exact a
  rw [if_pos rfl] at ha
  obtain ⟨count, hcount⟩ := Nat.exists_eq_add_one.mpr (show 0 < w.useCount a by omega)
  cases count with
  | zero => exact ⟨_, by rw [World.release, hcount]; rfl, h.free hcount, rfl, rfl⟩
  | succ count => exact ⟨_, by rw [World.release, hcount]; rfl, h.drop hcount, rfl, rfl⟩

theorem Inv.assign [DecidableEq N] (h : Inv w r) (n : N) {value : Option CharacterStyle}
    (hr : r.bind w.styles = value) :
    ∃ w', w.assign n r value = some w' ∧ Inv w' none ∧ w'.alive = w.alive ∧ w'.cache = w.cache := by
  have htake := h.take n hr
  rw [World.assign]
  cases hn : w.vars n with
  | none =>
    rw [hn] at htake
    exact ⟨_, rfl, htake, rfl, rfl⟩
  | some old =>
    rw [hn] at htake
    exact htake.release

theorem Inv.dropCache {l : List (CharacterStyle × A)} (h : Inv w none) (halive : w.alive = false)
    (hl : w.cache = l) :
    ∃ w', w.dropCache l = some w' ∧ Inv w' none ∧ w'.alive = false ∧ w'.cache = [] := by
  induction l generalizing w with
  | nil =>
    refine ⟨_, rfl, ?_, halive, rfl⟩
    rw [← hl]
    exact h
  | cons p rest ih =>
    obtain ⟨key, style⟩ := p
    have hrest : Inv { w with cache := rest } (some style) := by
      refine ⟨fun b => ?_, h.live, fun q hq => h.cached q (hl ▸ List.mem_cons_of_mem _ hq), ?_, h.inj, h.values,
        ?_, ?_, ?_⟩
      · have hb : w.useCount b = base w b + 0 + holders w.vars b := h.exact b
        rw [base, hl, List.map_cons, List.count_cons] at hb
        show w.useCount b = (rest.map Prod.snd).count b + (if some style = some b then 1 else 0) + holders w.vars b
        simpa using hb
      · have hkeys := h.keys
        rw [hl] at hkeys
        exact (List.nodup_cons.mp hkeys).2
      · intro hal
        rw [halive] at hal
        cases hal
      · intro hal
        rw [halive] at hal
        cases hal
      · intro hal
        rw [halive] at hal
        cases hal
    obtain ⟨w₁, hw₁, h₁, halive₁, hcache₁⟩ := hrest.release
    obtain ⟨w', hw', h', halive', hcache'⟩ := ih h₁ (halive₁.trans halive) hcache₁
    exact ⟨w', by rw [World.dropCache, hw₁]; exact hw', h', halive', hcache'⟩

theorem Inv.miss (h : Inv w none) (halive : w.alive = true) {key : CharacterStyle}
    (hkey : key ∉ w.cache.map Prod.fst) (hfree : (w.styles a).isSome = false) :
    Inv { w with
      styles := Function.update w.styles a (some key)
      useCount := Function.update (Function.update w.useCount a 1) a (Function.update w.useCount a 1 a + 1)
      served := w.served ++ [key]
      cache := (key, a) :: w.cache } (some a) := by
  have hzero : w.useCount a = 0 := by
    have := h.live a
    rw [hfree] at this
    have : ¬ 0 < w.useCount a := fun hpos => Bool.false_ne_true (this.mpr hpos)
    omega
  have hnone : w.styles a = none := by simpa using hfree
  have hexact : w.useCount a = base w a + 0 + holders w.vars a := h.exact a
  have hne : ∀ b key', w.styles b = some key' → b ≠ a := by
    rintro b key' hb rfl
    rw [hnone] at hb
    cases hb
  have hstyles : ∀ b key', Function.update w.styles a (some key) b = some key' →
      b = a ∧ key' = key ∨ b ≠ a ∧ w.styles b = some key' := by
    intro b key' hb
    by_cases hab : b = a
    · subst hab
      rw [Function.update_self] at hb
      exact .inl ⟨rfl, (Option.some.inj hb).symm⟩
    · rw [Function.update_of_ne hab] at hb
      exact .inr ⟨hab, hb⟩
  have hnew : ∀ b, w.styles b = some key → False :=
    fun b hb => hkey (List.mem_map_of_mem (h.complete halive b key hb))
  refine ⟨fun b => ?_, fun b => ?_, fun p hp => ?_, List.nodup_cons.mpr ⟨hkey, h.keys⟩, fun b c key' hb hc => ?_,
    fun n => ?_, fun _ b key' hb => ?_, fun hal key' => ?_, fun hal => ?_⟩
  · have hb : w.useCount b = base w b + 0 + holders w.vars b := h.exact b
    show Function.update (Function.update w.useCount a 1) a (Function.update w.useCount a 1 a + 1) b =
      (a :: w.cache.map Prod.snd).count b + (if some a = some b then 1 else 0) + holders w.vars b
    by_cases hab : b = a
    · subst hab
      rw [Function.update_self, Function.update_self, List.count_cons_self, if_pos rfl]
      show 1 + 1 = base w b + 1 + 1 + holders w.vars b
      omega
    · rw [Function.update_of_ne hab, Function.update_of_ne hab, List.count_cons_of_ne (Ne.symm hab),
        if_neg (by simpa using Ne.symm hab)]
      exact hb
  · show (Function.update w.styles a (some key) b).isSome = true ↔
      0 < Function.update (Function.update w.useCount a 1) a (Function.update w.useCount a 1 a + 1) b
    by_cases hab : b = a
    · subst hab
      simp
    · rw [Function.update_of_ne hab, Function.update_of_ne hab, Function.update_of_ne hab]
      exact h.live b
  · rcases List.mem_cons.mp hp with rfl | hp
    · exact Function.update_self _ _ _
    · have hold := h.cached p hp
      exact (Function.update_of_ne (hne _ _ hold) _ _).trans hold
  · rcases hstyles b key' hb with ⟨rfl, rfl⟩ | ⟨_, hb'⟩
    · rcases hstyles c key' hc with ⟨rfl, _⟩ | ⟨_, hc'⟩
      · rfl
      · exact (hnew c hc').elim
    · rcases hstyles c key' hc with ⟨rfl, rfl⟩ | ⟨_, hc'⟩
      · exact (hnew b hb').elim
      · exact h.inj b c key' hb' hc'
  · show (w.vars n).bind (Function.update w.styles a (some key)) = w.values n
    rw [← h.values]
    cases hn : w.vars n with
    | none => rfl
    | some b =>
      have hab : b ≠ a := by
        rintro rfl
        have := holders_pos_iff.mpr ⟨n, hn⟩
        omega
      exact Function.update_of_ne hab _ _
  · rcases hstyles b key' hb with ⟨rfl, rfl⟩ | ⟨_, hb'⟩
    · exact List.mem_cons_self
    · exact List.mem_cons_of_mem _ (h.complete halive b key' hb')
  · show key' ∈ w.served ++ [key] ↔ key' ∈ key :: w.cache.map Prod.fst
    rw [List.mem_append, h.served hal, List.mem_singleton, List.mem_cons, or_comm]
  · have := h.hits hal
    show w.cacheHits + (w.cache.length + 1) = (w.served ++ [key]).length
    rw [List.length_append, List.length_singleton]
    omega

omit [Fintype N] [DecidableEq A] in
theorem done_of_eq {o : Option (World N A)} {w' : World N A} (h : o = some w') :
    (do let w ← o; some (w, Outcome.done)) = some (w', Outcome.done) := by
  rw [h]
  rfl

variable [DecidableEq N]

theorem Inv.hit (h : Inv w none) (n : N) {key : CharacterStyle} (hmem : (key, a) ∈ w.cache) :
    ∃ w', ({ w with cacheHits := w.cacheHits + 1, served := w.served ++ [key] }.retain a).assign n (some a)
      (some key) = some w' ∧ Inv w' none ∧ w'.alive = w.alive ∧ w'.cache = w.cache := by
  have hserved : Inv { w with cacheHits := w.cacheHits + 1, served := w.served ++ [key] } none := by
    refine ⟨h.exact, h.live, h.cached, h.keys, h.inj, h.values, h.complete, fun hal k => ?_, fun hal => ?_⟩
    · have hkey : key ∈ w.cache.map Prod.fst := List.mem_map_of_mem hmem
      rw [List.mem_append, h.served hal, List.mem_singleton]
      exact or_iff_left_of_imp fun hk => hk ▸ hkey
    · have := h.hits hal
      rw [List.length_append, List.length_singleton]
      show w.cacheHits + 1 + w.cache.length = _
      omega
  have hstyle : w.styles a = some key := h.cached _ hmem
  have hcount : 0 < w.useCount a := (h.live a).mp (by rw [hstyle]; rfl)
  exact (hserved.retain hcount).assign n hstyle

theorem Inv.getStyle (h : Inv w none) (halive : w.alive = true) (new : Source Unit A) (n : N)
    (key : CharacterStyle) :
    ∃ w' o, getStyle new w n key = some (w', o) ∧ Inv w' none ∧ w'.alive = true := by
  unfold Flyweight.getStyle
  cases hl : w.cache.lookup key with
  | some style =>
    obtain ⟨l₁, l₂, hcache, _⟩ := List.lookup_eq_some_iff.mp hl
    have hmem : (key, style) ∈ w.cache := by rw [hcache]; simp
    obtain ⟨w', hw', h', halive', _⟩ := h.hit n hmem
    exact ⟨w', .done, by simp only [hw', Option.bind_eq_bind, Option.bind_some], h', halive'.trans halive⟩
  | none =>
    cases hp : new.pick (fun a => (w.styles a).isSome) () with
    | none => exact ⟨w, .badAlloc, rfl, h, halive⟩
    | some style =>
      have hkey : key ∉ w.cache.map Prod.fst := by
        rintro hmem
        obtain ⟨p, hp, rfl⟩ := List.mem_map.mp hmem
        have := List.lookup_eq_none_iff.mp hl p hp
        simp at this
      have hmiss := h.miss halive hkey (new.free _ _ _ hp)
      have hvalue : (some style).bind (Function.update w.styles style (some key)) = some key :=
        Function.update_self ..
      obtain ⟨w', hw', h', halive', _⟩ := hmiss.assign n hvalue
      exact ⟨w', .done, done_of_eq hw', h', halive'.trans halive⟩

end

/-! ## Runs -/

/-- The factory is asked only while it exists. -/
def Legal (w : World N A) : Op N → Prop
  | .getStyle _ _ | .destroy => w.alive = true
  | .copy _ _ | .reset _ => True

structure RunInv [Fintype N] (w : World N A) : Prop where
  inv : Inv w none
  gone : w.alive = false → w.cache = []

variable [Fintype N]

theorem inv_init : RunInv ({} : World N A) where
  inv :=
    { exact := fun _ => by simp [base, holders_none]
      live := fun _ => by simp
      cached := nofun
      keys := List.nodup_nil
      inj := nofun
      values := fun _ => rfl
      complete := nofun
      served := fun _ _ => by simp
      hits := fun _ => rfl }
  gone := nofun

theorem Inv.live_iff {w : World N A} (h : Inv w none) (a : A) :
    (w.styles a).isSome = true ↔ a ∈ w.cache.map Prod.snd ∨ ∃ n, w.vars n = some a := by
  have hcount : w.useCount a = base w a + 0 + holders w.vars a := h.exact a
  rw [h.live, ← List.count_pos_iff, ← holders_pos_iff]
  show 0 < w.useCount a ↔ 0 < base w a ∨ 0 < holders w.vars a
  omega

theorem Inv.pointer_iff {w : World N A} (h : Inv w none) {n m : N} {a b : A} (hn : w.vars n = some a)
    (hm : w.vars m = some b) :
    a = b ↔ w.values n = w.values m := by
  rw [← h.values, ← h.values, hn, hm]
  constructor
  · rintro rfl
    rfl
  · intro heq
    obtain ⟨key, hkey⟩ := Option.isSome_iff_exists.mp ((h.live_iff a).mpr (.inr ⟨n, hn⟩))
    exact h.inj a b key hkey (heq.symm.trans hkey)

theorem Inv.unique {w : World N A} (h : Inv w none) (halive : w.alive = true) :
    w.uniqueStyles = w.served.toFinset.card := by
  have hkeys : w.served.toFinset = (w.cache.map Prod.fst).toFinset := by
    ext key
    rw [List.mem_toFinset, List.mem_toFinset, h.served halive]
  rw [hkeys, List.toFinset_card_of_nodup h.keys, List.length_map]
  rfl

variable [DecidableEq N]

theorem RunInv.step {w : World N A} (h : RunInv w) (new : Source Unit A) {op : Op N} (hl : Legal w op) :
    ∃ w' o, step new w op = some (w', o) ∧ RunInv w' := by
  cases op with
  | getStyle n key =>
    obtain ⟨w', o, hw', h', halive'⟩ := h.inv.getStyle hl new n key
    refine ⟨w', o, (if_pos hl).trans hw', h', fun hdead => ?_⟩
    rw [halive'] at hdead
    cases hdead
  | copy n m =>
    have hvalue := h.inv.values m
    have hassign : ∃ w', ((w.vars m).elim w w.retain).assign n (w.vars m) (w.values m) = some w' ∧ Inv w' none ∧
        w'.alive = w.alive ∧ w'.cache = w.cache := by
      cases hm : w.vars m with
      | none => exact h.inv.assign n (hm ▸ hvalue)
      | some a =>
        have hcount : w.useCount a = base w a + 0 + holders w.vars a := h.inv.exact a
        have hpos := holders_pos_iff.mpr ⟨m, hm⟩
        exact (h.inv.retain (by omega)).assign n (hm ▸ hvalue)
    obtain ⟨w', hw', h', halive', hcache'⟩ := hassign
    exact ⟨w', .done, done_of_eq hw', h', fun hdead => hcache'.trans (h.gone (halive'.symm.trans hdead))⟩
  | reset n =>
    have hnone : (none : Option A).bind w.styles = none := rfl
    obtain ⟨w', hw', h', halive', hcache'⟩ := h.inv.assign n hnone
    exact ⟨w', .done, done_of_eq hw', h', fun hdead => hcache'.trans (h.gone (halive'.symm.trans hdead))⟩
  | destroy =>
    have hdead : Inv { w with alive := false } none :=
      ⟨h.inv.exact, h.inv.live, h.inv.cached, h.inv.keys, h.inv.inj, h.inv.values, nofun, nofun, nofun⟩
    obtain ⟨w', hw', h', halive', hcache'⟩ := hdead.dropCache rfl rfl
    exact ⟨w', .done, (if_pos hl).trans (done_of_eq hw'), h', fun _ => hcache'⟩

/-- While the factory is asked only as long as it exists, no reference is given up twice; every variable has the
style it was set to, and two of them share it exactly when the styles are equal; a style is there as long as the
cache or a variable has it and no longer; and the factory has made as many styles as there were different ones among
those it was asked for. -/
theorem styles_run (new : Source Unit A) (ops : List (Op N)) (hg : (factory new).Guarded Legal ops) :
    ∃ s, (factory new).exec ops = some s ∧ (∀ n, (s.vars n).bind s.styles = s.values n) ∧
      (∀ n m a b, s.vars n = some a → s.vars m = some b → (a = b ↔ s.values n = s.values m)) ∧
      (∀ a, (s.styles a).isSome = true ↔ a ∈ s.cache.map Prod.snd ∨ ∃ n, s.vars n = some a) ∧
      (s.alive = false → s.cache = []) ∧
      (s.alive = true → s.uniqueStyles = s.served.toFinset.card ∧
        s.cacheHits + s.uniqueStyles = s.served.length) := by
  obtain ⟨s, he, h⟩ := (factory new).guarded_inv (P := RunInv) inv_init (fun w op h hl => h.step new hl) ops hg
  exact ⟨s, he, h.inv.values, fun n m a b hn hm => h.inv.pointer_iff hn hm, h.inv.live_iff, h.gone,
    fun hal => ⟨h.inv.unique hal, h.inv.hits hal⟩⟩

/-- Memory that has room for four styles. -/
def fourStyles : Source Unit Nat := .least 4

/-- Two variables with one style, which outlives the factory. -/
def sharedStyle : List (Op Bool) :=
  [.getStyle false ⟨"Arial", 12, false, false⟩, .getStyle true ⟨"Arial", 12, false, false⟩, .reset false, .destroy]

theorem styles_run_shared : ∃ s, (factory fourStyles).exec sharedStyle = some s ∧ s.alive = false ∧
    ∀ n, (s.vars n).bind s.styles = s.values n := by
  have hg : (factory fourStyles).Guarded Legal sharedStyle := by
    refine ⟨rfl, ?_⟩
    rintro _ ⟨⟩
    refine ⟨rfl, ?_⟩
    rintro _ ⟨⟩
    refine ⟨trivial, ?_⟩
    rintro _ ⟨⟩
    refine ⟨rfl, ?_⟩
    rintro _ ⟨⟩
    trivial
  obtain ⟨s, he, hvalues, _⟩ := styles_run fourStyles sharedStyle hg
  refine ⟨s, he, ?_, hvalues⟩
  cases he
  rfl

end Playground.Flyweight
