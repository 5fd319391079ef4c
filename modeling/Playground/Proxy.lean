import Mathlib.Data.Finset.Card
import Playground.Lib.CInt

/-!
# Stacked proxies (`patterns/proxy.cpp`)

A data service is the remote one or a proxy that owns another. The counters
are `int`s: a fetch that makes one of them overflow has no result.
-/

namespace Playground.Proxy

/-- A cache is the function that `find` computes. -/
inductive DataService
  | remoteDataService (requests : Int)
  | cachingProxy (real : DataService) (cache : String → Option String) (cacheHits : Int)
  | loggingProxy (real : DataService)

structure Fetched where
  service : DataService
  result : String
  log : List String := []

def dataFor (key : String) : String := "data_for_" ++ key

def fetch (key : String) : DataService → Option Fetched
  | .remoteDataService requests => do
    let requests ← CInt.fit (requests + 1)
    some { service := .remoteDataService requests, result := dataFor key }
  | .cachingProxy real cache cacheHits =>
    match cache key with
    | some result => do
      let cacheHits ← CInt.fit (cacheHits + 1)
      some { service := .cachingProxy real cache cacheHits, result }
    | none => do
      let f ← fetch key real
      let cache := Function.update cache key (some f.result)
      some { service := .cachingProxy f.service cache cacheHits, result := f.result, log := f.log }
  | .loggingProxy real => do
    let f ← fetch key real
    let called := "  [LOG] fetch(\"" ++ key ++ "\") called\n"
    let returned := "  [LOG] fetch(\"" ++ key ++ "\") returned: " ++ f.result ++ "\n"
    some { service := .loggingProxy f.service, result := f.result, log := called :: f.log ++ [returned] }

def requestCount : DataService → Int
  | .remoteDataService requests => requests
  | .cachingProxy real _ _ => requestCount real
  | .loggingProxy real => requestCount real

/-- `cache_hit_count()` of each caching proxy, the outermost first. -/
def cacheHitCounts : DataService → List Int
  | .remoteDataService _ => []
  | .cachingProxy real _ cacheHits => cacheHits :: cacheHitCounts real
  | .loggingProxy real => cacheHitCounts real

structure Session where
  service : DataService
  results : List String := []
  log : List String := []

def fetchAll : List String → DataService → Option Session
  | [], service => some { service }
  | key :: keys, service => do
    let f ← fetch key service
    let s ← fetchAll keys f.service
    some { service := s.service, results := f.result :: s.results, log := f.log ++ s.log }

/-! ## Stacks of proxies -/

inductive Wrapper
  | caching
  | logging
  deriving DecidableEq, Repr

def Wrapper.wrap : Wrapper → DataService → DataService
  | .caching, real => .cachingProxy real (fun _ => none) 0
  | .logging, real => .loggingProxy real

def build (ws : List Wrapper) : DataService := ws.foldr Wrapper.wrap (.remoteDataService 0)

def bare (key : String) : Option String := (fetch key (build [])).map (·.result)

theorem bare_eq (key : String) : bare key = some (dataFor key) := rfl

def requests (ws : List Wrapper) (keys : List String) : Nat :=
  if .caching ∈ ws then keys.toFinset.card else keys.length

def hits (ws : List Wrapper) (keys : List String) : List Int :=
  match ws.count .caching with
  | 0 => []
  | n + 1 => ((keys.length : Int) - keys.toFinset.card) :: List.replicate n 0

/-! ## First occurrences -/

section
variable {α : Type*} [DecidableEq α]

theorem eraseDups_concat_of_mem {l : List α} {a : α} (h : a ∈ l) : (l ++ [a]).eraseDups = l.eraseDups := by
  simp [List.eraseDups_append, List.removeAll, h]

theorem eraseDups_concat_of_not_mem {l : List α} {a : α} (h : a ∉ l) :
    (l ++ [a]).eraseDups = l.eraseDups ++ [a] := by
  simp [List.eraseDups_append, List.removeAll, h, List.eraseDups_cons]

theorem nodup_eraseDups (l : List α) : l.eraseDups.Nodup := by
  induction l using List.reverseRecOn with
  | nil => exact .nil
  | append_singleton l a ih =>
    by_cases ha : a ∈ l
    · rw [eraseDups_concat_of_mem ha]
      exact ih
    · rw [eraseDups_concat_of_not_mem ha]
      simpa using List.Nodup.concat (by simpa using ha) ih

theorem length_eraseDups (l : List α) : l.eraseDups.length = l.toFinset.card := by
  have hset : l.eraseDups.toFinset = l.toFinset := by
    ext a
    simp
  rw [← hset, List.toFinset_card_of_nodup (nodup_eraseDups l)]

end

/-! ## The stack after some fetches -/

def cached (keys : List String) (key : String) : Option String := if key ∈ keys then some (dataFor key) else none

theorem cached_concat (keys : List String) (key : String) :
    Function.update (cached keys) key (some (dataFor key)) = cached (keys ++ [key]) := by
  funext k
  by_cases hk : k = key
  · simp [hk, cached]
  · simp [hk, cached]

theorem cached_concat_of_mem {keys : List String} {key : String} (h : key ∈ keys) :
    cached (keys ++ [key]) = cached keys := by
  funext k
  by_cases hk : k = key
  · simp [hk, cached, h]
  · simp [hk, cached]

/-- The service below a cache has seen each key once, in the order of their first occurrences. -/
def after : List Wrapper → List String → DataService
  | [], keys => .remoteDataService keys.length
  | .caching :: ws, keys => .cachingProxy (after ws keys.eraseDups) (cached keys)
    (keys.length - keys.eraseDups.length)
  | .logging :: ws, keys => .loggingProxy (after ws keys)

theorem after_nil (ws : List Wrapper) : after ws [] = build ws := by
  induction ws with
  | nil => rfl
  | cons w ws ih =>
    cases w with
    | caching => simp only [after, List.eraseDups_nil, ih]; rfl
    | logging => simp only [after, ih]; rfl

def Fits (s : DataService) : Prop := requestCount s < 2 ^ 31 ∧ ∀ n ∈ cacheHitCounts s, n < 2 ^ 31

theorem fits_caching {ws : List Wrapper} {keys : List String} :
    Fits (after (.caching :: ws) keys) ↔
      (keys.length : Int) - keys.eraseDups.length < 2 ^ 31 ∧ Fits (after ws keys.eraseDups) := by
  simp only [Fits, after, requestCount, cacheHitCounts, List.forall_mem_cons]
  exact and_left_comm

theorem length_eraseDups_le (l : List String) : l.eraseDups.length ≤ l.length := by
  rw [length_eraseDups]
  exact List.toFinset_card_le l

theorem fits_of_concat {ws : List Wrapper} {keys : List String} {key : String}
    (h : Fits (after ws (keys ++ [key]))) : Fits (after ws keys) := by
  induction ws generalizing keys with
  | nil =>
    have hlt := h.1
    simp only [after, requestCount, List.length_append, List.length_singleton] at hlt
    exact ⟨by simp only [after, requestCount]; omega, nofun⟩
  | cons w ws ih =>
    cases w with
    | logging => exact ih h
    | caching =>
      rw [fits_caching] at h ⊢
      by_cases hk : key ∈ keys
      · rw [eraseDups_concat_of_mem hk, List.length_append, List.length_singleton] at h
        exact ⟨by omega, h.2⟩
      · rw [eraseDups_concat_of_not_mem hk, List.length_append, List.length_append, List.length_singleton] at h
        exact ⟨by omega, ih h.2⟩

theorem fetch_after {ws : List Wrapper} {keys : List String} {key : String} (h : Fits (after ws (keys ++ [key]))) :
    ∃ log, fetch key (after ws keys) =
      some { service := after ws (keys ++ [key]), result := dataFor key, log } := by
  induction ws generalizing keys with
  | nil =>
    have hlt := h.1
    simp only [after, requestCount, List.length_append, List.length_singleton] at hlt
    have hfit : CInt.fit ((keys.length : Int) + 1) = some ((keys ++ [key]).length : Int) := by
      rw [List.length_append, List.length_singleton]
      exact CInt.fit_of (by omega) (by omega)
    exact ⟨[], by simp only [after, fetch, hfit]; rfl⟩
  | cons w ws ih =>
    cases w with
    | logging =>
      obtain ⟨log, hf⟩ := ih h
      exact ⟨_, by simp only [after, fetch, hf]; rfl⟩
    | caching =>
      rw [fits_caching] at h
      by_cases hk : key ∈ keys
      · have hhit : cached keys key = some (dataFor key) := if_pos hk
        have hcount : ((keys ++ [key]).length : Int) = keys.length + 1 := by simp
        have hle := length_eraseDups_le keys
        rw [eraseDups_concat_of_mem hk, hcount] at h
        have hfit : CInt.fit ((keys.length : Int) - keys.eraseDups.length + 1) =
            some ((keys.length : Int) + 1 - keys.eraseDups.length) := by
          rw [CInt.fit_of (by omega) (by omega)]
          congr 1
          omega
        refine ⟨[], ?_⟩
        simp only [after, fetch, hhit, hfit, Option.bind_eq_bind, Option.bind_some, eraseDups_concat_of_mem hk,
          cached_concat_of_mem hk, hcount]
      · have hmiss : cached keys key = none := if_neg hk
        rw [eraseDups_concat_of_not_mem hk] at h
        obtain ⟨log, hf⟩ := ih h.2
        have hsame : ((keys ++ [key]).length : Int) - (keys.eraseDups ++ [key]).length =
            keys.length - keys.eraseDups.length := by
          simp only [List.length_append, List.length_singleton]
          omega
        refine ⟨log, ?_⟩
        simp only [after, fetch, hmiss, hf, Option.bind_eq_bind, Option.bind_some, eraseDups_concat_of_not_mem hk,
          cached_concat, hsame]

theorem fetch_overflow {ws : List Wrapper} {keys : List String} {key : String} (hs : Fits (after ws keys))
    (h : ¬ Fits (after ws (keys ++ [key]))) : fetch key (after ws keys) = none := by
  induction ws generalizing keys with
  | nil =>
    have hge : ¬ (keys.length : Int) + 1 < 2 ^ 31 := by
      intro hlt
      exact h ⟨by simpa [after, requestCount] using hlt, nofun⟩
    have hfit : CInt.fit ((keys.length : Int) + 1) = none := if_neg fun hx => hge hx.2
    simp only [after, fetch, hfit]
    rfl
  | cons w ws ih =>
    cases w with
    | logging =>
      simp only [after, fetch, ih hs h]
      rfl
    | caching =>
      rw [fits_caching] at hs h
      by_cases hk : key ∈ keys
      · have hhit : cached keys key = some (dataFor key) := if_pos hk
        have hcount : ((keys ++ [key]).length : Int) = keys.length + 1 := by simp
        rw [eraseDups_concat_of_mem hk, hcount] at h
        have hfit : CInt.fit ((keys.length : Int) - keys.eraseDups.length + 1) = none := by
          refine if_neg fun hx => h ⟨?_, hs.2⟩
          omega
        simp only [after, fetch, hhit, hfit]
        rfl
      · have hmiss : cached keys key = none := if_neg hk
        have hsame : ((keys ++ [key]).length : Int) - (keys.eraseDups ++ [key]).length =
            keys.length - keys.eraseDups.length := by
          simp only [List.length_append, List.length_singleton]
          omega
        rw [eraseDups_concat_of_not_mem hk, hsame] at h
        have hf := ih hs.2 fun hi => h ⟨hs.1, hi⟩
        simp only [after, fetch, hmiss, hf]
        rfl

/-! ## Sequences of fetches -/

theorem fits_of_append {ws : List Wrapper} {past keys : List String} (h : Fits (after ws (past ++ keys))) :
    Fits (after ws past) := by
  induction keys using List.reverseRecOn with
  | nil => simpa using h
  | append_singleton keys key ih =>
    rw [← List.append_assoc] at h
    exact ih (fits_of_concat h)

theorem fetchAll_after {ws : List Wrapper} {past keys : List String} (h : Fits (after ws (past ++ keys))) :
    ∃ log, fetchAll keys (after ws past) =
      some { service := after ws (past ++ keys), results := keys.map dataFor, log } := by
  induction keys generalizing past with
  | nil => exact ⟨[], by simp [fetchAll]⟩
  | cons key keys ih =>
    rw [List.append_cons] at h ⊢
    obtain ⟨log, hf⟩ := fetch_after (fits_of_append h)
    obtain ⟨log', hs⟩ := ih h
    exact ⟨log ++ log', by simp [fetchAll, hf, hs]⟩

theorem fetchAll_overflow {ws : List Wrapper} {past keys : List String} (hs : Fits (after ws past))
    (h : ¬ Fits (after ws (past ++ keys))) : fetchAll keys (after ws past) = none := by
  induction keys generalizing past with
  | nil => exact absurd hs (by simpa using h)
  | cons key keys ih =>
    rw [List.append_cons] at h
    by_cases hk : Fits (after ws (past ++ [key]))
    · obtain ⟨log, hf⟩ := fetch_after hk
      simp [fetchAll, hf, ih hk h]
    · simp [fetchAll, fetch_overflow hs hk]

/-! ## The counters -/

theorem requests_caching (ws : List Wrapper) (keys : List String) :
    requests (.caching :: ws) keys = keys.toFinset.card := by simp [requests]

theorem requests_logging (ws : List Wrapper) (keys : List String) :
    requests (.logging :: ws) keys = requests ws keys := by simp [requests]

theorem requests_of_nodup {ws : List Wrapper} {keys : List String} (h : keys.Nodup) :
    requests ws keys = keys.length := by
  unfold requests
  rw [List.toFinset_card_of_nodup h, ite_self]

theorem requestCount_after (ws : List Wrapper) (keys : List String) :
    requestCount (after ws keys) = requests ws keys := by
  induction ws generalizing keys with
  | nil => simp [after, requestCount, requests]
  | cons w ws ih =>
    cases w with
    | logging => rw [requests_logging, after, requestCount, ih]
    | caching =>
      rw [requests_caching, after, requestCount, ih, requests_of_nodup (nodup_eraseDups keys), length_eraseDups]

theorem hits_caching (ws : List Wrapper) (keys : List String) :
    hits (.caching :: ws) keys =
      ((keys.length : Int) - keys.toFinset.card) :: List.replicate (ws.count .caching) 0 := by
  simp [hits]

theorem hits_logging (ws : List Wrapper) (keys : List String) : hits (.logging :: ws) keys = hits ws keys := by
  simp [hits]

theorem hits_of_nodup {ws : List Wrapper} {keys : List String} (h : keys.Nodup) :
    hits ws keys = List.replicate (ws.count .caching) 0 := by
  unfold hits
  cases ws.count .caching with
  | zero => rfl
  | succ n => simp [List.toFinset_card_of_nodup h, List.replicate_succ]

theorem cacheHitCounts_after (ws : List Wrapper) (keys : List String) :
    cacheHitCounts (after ws keys) = hits ws keys := by
  induction ws generalizing keys with
  | nil => rfl
  | cons w ws ih =>
    cases w with
    | logging => rw [hits_logging, after, cacheHitCounts, ih]
    | caching =>
      rw [hits_caching, after, cacheHitCounts, ih, hits_of_nodup (nodup_eraseDups keys), length_eraseDups]

def Countable (ws : List Wrapper) (keys : List String) : Prop :=
  requests ws keys < 2 ^ 31 ∧ ∀ n ∈ hits ws keys, n < 2 ^ 31

theorem fits_iff {ws : List Wrapper} {keys : List String} : Fits (after ws keys) ↔ Countable ws keys := by
  unfold Fits Countable
  rw [requestCount_after, cacheHitCounts_after]
  norm_cast

theorem fits_build (ws : List Wrapper) : Fits (after ws []) := by
  rw [fits_iff]
  refine ⟨by simp [requests], fun n hn => ?_⟩
  rw [hits_of_nodup .nil] at hn
  have hn0 := List.eq_of_mem_replicate hn
  omega

/-- **Proxies are transparent**: the responses are those of the bare service,
the requests that reach it are the distinct keys if there is a cache and all
fetches otherwise, and only the outermost cache has hits. It is so exactly as
long as no counter overflows. -/
theorem proxies_transparent_iff (ws : List Wrapper) (keys : List String) :
    (∃ s, fetchAll keys (build ws) = some s ∧ s.results.map some = keys.map bare ∧
      requestCount s.service = requests ws keys ∧ cacheHitCounts s.service = hits ws keys) ↔ Countable ws keys := by
  rw [← fits_iff, ← after_nil]
  constructor
  · intro ⟨s, hs, _⟩
    by_contra h
    rw [fetchAll_overflow (fits_build ws) (by simpa using h)] at hs
    cases hs
  · intro h
    have hfits : Fits (after ws ([] ++ keys)) := by simpa using h
    obtain ⟨log, hs⟩ := fetchAll_after hfits
    exact ⟨_, hs, by simp [Function.comp_def, bare_eq], requestCount_after ws keys, cacheHitCounts_after ws keys⟩

example : (fetchAll ["user_123", "user_123", "order_456"] (build [.logging, .caching])).map
    (fun s => (requestCount s.service, cacheHitCounts s.service)) = some (2, [1]) := by decide

theorem fetchAll_bare {k : Nat} (hk : k = 2 ^ 31) (key : String) :
    fetchAll (List.replicate k key) (build []) = none := by
  rw [← after_nil]
  refine fetchAll_overflow (fits_build []) ?_
  rw [fits_iff]
  intro ⟨h, _⟩
  simp [requests] at h
  omega

/-- The bare service fetched `2 ^ 31` times: its counter overflows. -/
theorem proxies_overflow :
    ¬ ∃ s, fetchAll (List.replicate (2 ^ 31) "user_123") (build []) = some s ∧
      s.results.map some = (List.replicate (2 ^ 31) "user_123").map bare ∧
      requestCount s.service = requests [] (List.replicate (2 ^ 31) "user_123") ∧
      cacheHitCounts s.service = hits [] (List.replicate (2 ^ 31) "user_123") := by
  intro ⟨s, hs, _⟩
  rw [fetchAll_bare rfl] at hs
  cases hs

end Playground.Proxy
