import Playground.Mediator

/-!
# The bus does what direct calls do

A handler adds to the counters and to the output and leaves the subscriptions
alone, so that the handlers of one event add up; a login attempt is a round of
`AuthService`s, each with a round of all that listen to what it replies. The
counters only grow, so that none overflows on the way if none does at the end.
-/

namespace Playground.Mediator

/-! ## What handlers add -/

def Handler.service : Handler → Nat
  | .authenticate i | .loggedIn i | .failedLogin i | .welcome i => i

def Handler.text (data : String) : Handler → String
  | .authenticate _ => authenticating data
  | .loggedIn _ => userLoggedIn data
  | .failedLogin _ => failedAttempt data
  | .welcome _ => welcomeBack data

def Handler.publishes : Handler → Bool
  | .authenticate _ => true
  | .loggedIn _ | .failedLogin _ | .welcome _ => false

def World.gain (w : World) (g : Nat → Nat) (ls : List String) : World :=
  { w with counts := fun i => w.counts i + g i, output := w.output ++ ls }

/-- No counter has overflowed. -/
def World.Fits (w : World) : Prop := ∀ i, 0 ≤ w.counts i ∧ w.counts i < 2 ^ 31

/-- `r` is `w` with that added, and undefined if a counter overflows. -/
def Adds (r : Option World) (w : World) (g : Nat → Nat) (ls : List String) : Prop :=
  ∀ w', r = some w' ↔ w' = w.gain g ls ∧ w'.Fits

@[simp] theorem World.gain_handlers (w : World) (g : Nat → Nat) (ls : List String) :
    (w.gain g ls).handlers = w.handlers := rfl

theorem World.gain_gain (w : World) (g g' : Nat → Nat) (ls ls' : List String) :
    (w.gain g ls).gain g' ls' = w.gain (fun i => g i + g' i) (ls ++ ls') := by
  simp only [gain, Int.natCast_add, Int.add_assoc, List.append_assoc]

theorem World.gain_zero (w : World) (ls : List String) :
    w.gain (fun _ => 0) ls = { w with output := w.output ++ ls } := by
  simp [gain]

theorem World.fits_of_gain {w : World} {g : Nat → Nat} {ls : List String} (hw : w.Fits) (h : (w.gain g ls).Fits)
    {g' : Nat → Nat} (hle : ∀ i, g' i ≤ g i) (ls' : List String) : (w.gain g' ls').Fits := by
  intro i
  have hpos := (hw i).1
  have hlt := (h i).2
  have hi := hle i
  simp only [gain] at hlt ⊢
  omega

section
variable {w : World} (hw : w.Fits)

include hw

theorem adds_some (ls : List String) : Adds (some { w with output := w.output ++ ls }) w (fun _ => 0) ls := by
  intro w'
  rw [World.gain_zero, Option.some.injEq, eq_comm, iff_self_and]
  rintro rfl
  exact hw

theorem adds_bump (service : Nat) : Adds (w.bump service) w (fun i => if service = i then 1 else 0) [] := by
  have hgain : w.gain (fun i => if service = i then 1 else 0) [] =
      { w with counts := Function.update w.counts service (w.counts service + 1) } := by
    simp only [World.gain, List.append_nil]
    congr 1
    funext i
    by_cases h : service = i
    · subst h
      simp
    · simp [h, Function.update_of_ne (Ne.symm h)]
  intro w'
  rw [World.bump, hgain, Option.bind_eq_bind, Option.bind_eq_some_iff]
  constructor
  · rintro ⟨count, hcount, hw'⟩
    obtain ⟨rfl, -, hlt⟩ := CInt.fit_eq_some hcount
    obtain rfl := Option.some.inj hw'
    refine ⟨rfl, fun i => ?_⟩
    by_cases h : i = service
    · subst h
      have hpos := (hw i).1
      simp only [Function.update_self]
      omega
    · simpa [Function.update_of_ne h] using hw i
  · rintro ⟨rfl, hfits⟩
    have hi := hfits service
    simp only [Function.update_self] at hi
    exact ⟨_, CInt.fit_of (by omega) hi.2, rfl⟩

theorem Adds.bind {r : Option World} {f : World → Option World} {g g' : Nat → Nat} {ls ls' : List String}
    (h : Adds r w g ls) (hf : ∀ w' : World, w'.handlers = w.handlers → w'.Fits → Adds (f w') w' g' ls') :
    Adds (r.bind f) w (fun i => g i + g' i) (ls ++ ls') := by
  intro w'
  rw [Option.bind_eq_some_iff, ← World.gain_gain]
  constructor
  · rintro ⟨v, hv, hw'⟩
    obtain ⟨rfl, hfits⟩ := (h v).mp hv
    exact (hf (w.gain g ls) rfl hfits w').mp hw'
  · rintro ⟨rfl, hfits⟩
    have hfits₁ : (w.gain g ls).Fits := by
      rw [World.gain_gain] at hfits
      exact World.fits_of_gain hw hfits (fun i => Nat.le_add_right ..) ls
    exact ⟨w.gain g ls, (h _).mpr ⟨rfl, hfits₁⟩, (hf (w.gain g ls) rfl hfits₁ _).mpr ⟨rfl, hfits⟩⟩

/-- Handlers that leave the subscriptions alone add up. -/
theorem adds_foldlM {f : World → Subscription → Option World} {g : Subscription → Nat → Nat}
    {t : Subscription → List String} {l : List Subscription}
    (hf : ∀ s ∈ l, ∀ w' : World, w'.handlers = w.handlers → w'.Fits → Adds (f w' s) w' (g s) (t s)) :
    Adds (l.foldlM f w) w (fun i => (l.map fun s => g s i).sum) (l.flatMap t) := by
  induction l generalizing w with
  | nil => simpa using adds_some hw []
  | cons s l ih =>
    simp only [List.foldlM_cons, List.map_cons, List.sum_cons, List.flatMap_cons]
    refine (hf s List.mem_cons_self w rfl hw).bind hw fun v hv hfits => ?_
    exact ih hfits fun u hu w' hw' => hf u (List.mem_cons_of_mem _ hu) w' (hw'.trans hv)

theorem adds_print_bump (l : String) (service : Nat) :
    Adds ((w.print l).bump service) w (fun i => if service = i then 1 else 0) [l] := by
  have h := (adds_some hw [l]).bind hw fun v _ hfits => adds_bump hfits service
  simp only [Nat.zero_add, List.append_nil] at h
  exact h

theorem call_leaf (pub : World → String → String → Option World) (data : String) {h : Handler}
    (hleaf : h.publishes = false) :
    Adds (call pub w data h) w (fun i => if h.service = i then 1 else 0) [h.text data] := by
  cases h with
  | authenticate service => cases hleaf
  | loggedIn service => exact adds_print_bump hw _ service
  | failedLogin service => exact adds_print_bump hw _ service
  | welcome service => exact adds_print_bump hw _ service

end

def hits (l : List Subscription) (i : Nat) : Nat := l.countP fun s => s.handler.service = i

theorem sum_hits (l : List Subscription) (i : Nat) :
    (l.map fun s => if s.handler.service = i then 1 else 0).sum = hits l i := by
  induction l with
  | nil => rfl
  | cons s l ih =>
    rw [List.map_cons, List.sum_cons, ih, hits, hits, List.countP_cons, Nat.add_comm]
    simp

theorem publish_leaf {w : World} (hw : w.Fits) {event : String} (data : String) (depth : Nat)
    (hleaf : ∀ s ∈ w.handlers event, s.handler.publishes = false) :
    Adds (publish (depth + 1) w event data) w (hits (w.handlers event))
      ((w.handlers event).map fun s => s.handler.text data) := by
  have hrun := adds_foldlM hw (f := fun w s => call (publish depth) w data s.handler)
    (g := fun s i => if s.handler.service = i then 1 else 0) (t := fun s => [s.handler.text data])
    fun s hs w' _ hw' => call_leaf hw' (publish depth) data (hleaf s hs)
  simp only [sum_hits, ← List.map_eq_flatMap] at hrun
  exact hrun

/-- What a login attempt adds, as far as one `AuthService` goes. -/
theorem call_authenticate {w : World} (hw : w.Fits) {data : String} {h : Handler} (depth : Nat)
    (hpub : h.publishes = true) (hleaf : ∀ s ∈ w.handlers (reply data), s.handler.publishes = false) :
    Adds (call (publish (depth + 1)) w data h) w
      (fun i => hits (w.handlers (reply data)) i + if accepted data ∧ h.service = i then 1 else 0)
      (h.text data :: (w.handlers (reply data)).map fun s => s.handler.text data) := by
  cases h with
  | loggedIn service => cases hpub
  | failedLogin service => cases hpub
  | welcome service => cases hpub
  | authenticate service =>
    have hreply : Adds (publish (depth + 1) (w.print (authenticating data)) (reply data) data) w
        (fun i => hits (w.handlers (reply data)) i)
        (authenticating data :: (w.handlers (reply data)).map fun s => s.handler.text data) := by
      have h := (adds_some hw [authenticating data]).bind hw fun v hv hfits =>
        (show Adds (publish (depth + 1) v (reply data) data) v _ _ from by
          rw [← hv] at hleaf
          have hrun := publish_leaf hfits data depth hleaf
          rw [hv] at hrun
          exact hrun)
      simp only [Nat.zero_add] at h
      exact h
    by_cases hok : accepted data = true
    · have hcall : call (publish (depth + 1)) w data (.authenticate service) =
          (publish (depth + 1) (w.print (authenticating data)) (reply data) data).bind fun w => w.bump service := by
        rw [call, if_pos hok, reply, if_pos hok]
        rfl
      have h := hreply.bind hw fun v _ hfits => adds_bump hfits service
      rw [hcall]
      simp only [List.append_nil] at h
      simp only [hok, true_and]
      exact h
    · have hcall : call (publish (depth + 1)) w data (.authenticate service) =
          publish (depth + 1) (w.print (authenticating data)) (reply data) data := by
        rw [call, if_neg hok, reply, if_neg hok]
      have hnone : ∀ i, ¬ (accepted data = true ∧ (Handler.authenticate service).service = i) := fun i h => hok h.1
      rw [hcall]
      simp only [hnone, if_false, Nat.add_zero]
      exact hreply

theorem sum_attempts (l : List Subscription) (n i : Nat) (ok : Bool) :
    (l.map fun s => n + if ok ∧ s.handler.service = i then 1 else 0).sum =
    l.length * n + if ok then hits l i else 0 := by
  induction l with
  | nil => simp [hits]
  | cons s l ih =>
    rw [List.map_cons, List.sum_cons, ih, List.length_cons, Nat.succ_mul, hits, hits, List.countP_cons]
    cases ok
    · simp
      omega
    · simp
      omega

/-- What a login attempt adds in all. -/
theorem publish_login {w : World} (hw : w.Fits) {event data : String} (depth : Nat)
    (hpub : ∀ s ∈ w.handlers event, s.handler.publishes = true)
    (hleaf : ∀ s ∈ w.handlers (reply data), s.handler.publishes = false) :
    Adds (publish (depth + 2) w event data) w
      (fun i => (w.handlers event).length * hits (w.handlers (reply data)) i +
        if accepted data then hits (w.handlers event) i else 0)
      ((w.handlers event).flatMap fun s =>
        s.handler.text data :: (w.handlers (reply data)).map fun s => s.handler.text data) := by
  have hrun := adds_foldlM hw (f := fun w s => call (publish (depth + 1)) w data s.handler)
    (g := fun s i => hits (w.handlers (reply data)) i + if accepted data ∧ s.handler.service = i then 1 else 0)
    (t := fun s => s.handler.text data :: (w.handlers (reply data)).map fun s => s.handler.text data)
    (l := w.handlers event) fun s hs w' hw' hfits => by
      have hcall := @call_authenticate w' hfits data _ depth (hpub s hs)
      rw [hw'] at hcall
      exact hcall hleaf
  simp only [sum_attempts] at hrun
  exact hrun

/-! ## The subscriptions of the services -/

def handlerOf (kind : Kind) (event : String) (service : Nat) : Handler :=
  match kind with
  | .auth => .authenticate service
  | .logging => if event = authenticated then .loggedIn service else .failedLogin service
  | .notification => .welcome service

def subscriptionsOf (event : String) (q : Service × Nat) : List Subscription :=
  (q.1.to event).map fun p => ⟨p.1, handlerOf q.1.kind event q.2⟩

def subscriptions (services : List Service) (event : String) : List Subscription :=
  services.zipIdx.flatMap (subscriptionsOf event)

theorem service_handlerOf (kind : Kind) (event : String) (i : Nat) : (handlerOf kind event i).service = i := by
  cases kind with
  | auth => rfl
  | notification => rfl
  | logging =>
    rw [handlerOf]
    split
    · rfl
    · rfl

theorem text_handlerOf (kind : Kind) (event data : String) (i : Nat) :
    (handlerOf kind event i).text data = line kind event data := by
  cases kind with
  | auth => rfl
  | notification => rfl
  | logging =>
    rw [handlerOf, line]
    split
    · rfl
    · rfl

theorem publishes_handlerOf (kind : Kind) (event : String) (i : Nat) :
    (handlerOf kind event i).publishes = true ↔ kind = .auth := by
  cases kind with
  | auth => exact iff_of_true rfl rfl
  | notification => exact iff_of_false nofun nofun
  | logging =>
    rw [handlerOf]
    split
    · exact iff_of_false nofun nofun
    · exact iff_of_false nofun nofun

theorem hits_subscriptionsOf (event : String) (q : Service × Nat) (i : Nat) :
    hits (subscriptionsOf event q) i = if q.2 = i then (q.1.to event).length else 0 := by
  rw [hits, subscriptionsOf, List.countP_map]
  split
  · rename_i h
    rw [List.countP_eq_length]
    intro p _
    simp [service_handlerOf, h]
  · rename_i h
    rw [List.countP_eq_zero]
    intro p _
    simp [service_handlerOf, h]

theorem hits_zipIdx (services : List Service) (event : String) (n i : Nat) :
    hits ((services.zipIdx n).flatMap (subscriptionsOf event)) (n + i) =
      (services[i]?.elim [] fun s => s.to event).length := by
  induction services generalizing n i with
  | nil => rfl
  | cons s services ih =>
    rw [List.zipIdx_cons, List.flatMap_cons, hits, List.countP_append]
    have hs := hits_subscriptionsOf event (s, n) (n + i)
    rw [hits] at hs
    rw [hs]
    cases i with
    | zero =>
      have hrest : ((services.zipIdx (n + 1)).flatMap (subscriptionsOf event)).countP
          (fun t => t.handler.service = n + 0) = 0 := by
        rw [List.countP_eq_zero]
        intro t ht
        obtain ⟨q, hq, ht⟩ := List.mem_flatMap.mp ht
        obtain ⟨p, _, rfl⟩ := List.mem_map.mp ht
        have hle := List.le_snd_of_mem_zipIdx hq
        simp only [service_handlerOf, decide_eq_true_eq]
        omega
      rw [hrest]
      exact if_pos rfl
    | succ i =>
      rw [if_neg (by omega), Nat.zero_add, List.getElem?_cons_succ, ← ih (n + 1) i, hits, Nat.add_right_comm]
      rfl

theorem hits_subscriptions (d : Direct) (event : String) :
    hits (subscriptions d.services event) = d.told event := by
  funext i
  have h := hits_zipIdx d.services event 0 i
  rw [Nat.zero_add] at h
  exact h

theorem text_subscriptions (d : Direct) (event data : String) :
    ((subscriptions d.services event).map fun s => s.handler.text data) = d.lines event data := by
  rw [subscriptions, List.map_flatMap, Direct.lines]
  conv_rhs => rw [← List.zipIdx_map_fst 0 d.services, List.flatMap_map]
  refine congrArg List.flatten (List.map_congr_left fun q _ => ?_)
  rw [subscriptionsOf, List.map_map]
  exact List.map_congr_left fun p _ => text_handlerOf _ _ _ _

theorem length_subscriptions (d : Direct) : (subscriptions d.services loginRequest).length = d.attempts := by
  rw [subscriptions, List.length_flatMap, Direct.attempts]
  conv_rhs => rw [← List.zipIdx_map_fst 0 d.services, List.map_map]
  refine congrArg List.sum (List.map_congr_left fun q _ => ?_)
  rw [subscriptionsOf, List.length_map]
  rfl

theorem subscribe_handlers (w : World) (topic : String) (handler : Handler) (event : String) :
    (w.subscribe topic handler).handlers event =
    w.handlers event ++ if topic = event then [⟨w.nextId, handler⟩] else [] := by
  by_cases h : topic = event
  · subst h
    simp [World.subscribe]
  · simp [World.subscribe, h, Function.update_of_ne (Ne.symm h)]

theorem subscriptionsOf_cons (event topic : String) (kind : Kind) (id : BitVec 64)
    (live : List (BitVec 64 × String)) (i : Nat) :
    subscriptionsOf event (⟨kind, (id, topic) :: live⟩, i) =
      (if topic = event then [⟨id, handlerOf kind event i⟩] else []) ++ subscriptionsOf event
        (⟨kind, live⟩, i) := by
  by_cases h : topic = event
  · simp [subscriptionsOf, Service.to, h]
  · simp [subscriptionsOf, Service.to, h]

/-! ## The bus and the services -/

structure Rep (w : World) (d : Direct) : Prop where
  handlers : ∀ event, w.handlers event = subscriptions d.services event
  nextId : w.nextId = d.nextId
  services : w.services = d.services.length
  counts : ∀ i, w.counts i = d.counts i
  output : w.output = d.output
  listens : ∀ s ∈ d.services, ∀ p ∈ s.live, p.2 ∈ topics s.kind

theorem authenticated_ne :
    authenticated ≠ loginRequest ∧ authFailed ≠ loginRequest ∧ authenticated ≠ authFailed := by decide

theorem reply_ne (data : String) : reply data ≠ loginRequest := by
  rw [reply]
  split
  · exact authenticated_ne.1
  · exact authenticated_ne.2.1

theorem auth_iff_of_mem_topics {kind : Kind} {event : String} (h : event ∈ topics kind) :
    kind = .auth ↔ event = loginRequest := by
  cases kind with
  | auth => exact iff_of_true rfl (List.mem_singleton.mp h)
  | notification => exact iff_of_false nofun (List.mem_singleton.mp h ▸ authenticated_ne.1)
  | logging =>
    refine iff_of_false nofun ?_
    rcases List.mem_cons.mp h with rfl | h
    · exact authenticated_ne.1
    · exact List.mem_singleton.mp h ▸ authenticated_ne.2.1

section
variable {w : World} {d : Direct} (h : Rep w d)

include h

/-- The handlers of a login attempt publish, and no others. -/
theorem Rep.publishes {event : String} {t : Subscription} (ht : t ∈ w.handlers event) :
    t.handler.publishes = true ↔ event = loginRequest := by
  rw [h.handlers] at ht
  obtain ⟨q, hq, ht⟩ := List.mem_flatMap.mp ht
  obtain ⟨p, hp, rfl⟩ := List.mem_map.mp ht
  obtain ⟨hlive, hevent⟩ := List.mem_filter.mp hp
  have htopic := h.listens q.1 (List.fst_mem_of_mem_zipIdx hq) p hlive
  rw [of_decide_eq_true hevent] at htopic
  rw [publishes_handlerOf, auth_iff_of_mem_topics htopic]

theorem Rep.text {t : Subscription} (ht : t ∈ w.handlers loginRequest) (data : String) :
    t.handler.text data = line .auth loginRequest data := by
  have hpub := (h.publishes ht).mpr rfl
  cases ht' : t.handler with
  | authenticate service => rfl
  | loggedIn service =>
    rw [ht'] at hpub
    cases hpub
  | failedLogin service =>
    rw [ht'] at hpub
    cases hpub
  | welcome service =>
    rw [ht'] at hpub
    cases hpub

theorem Rep.publish (depth : Nat) (event data : String) : ∃ g ls, Rep (w.gain g ls) (d.publish event data) ∧
    (w.Fits → Adds (publish (depth + 2) w event data) w g ls) := by
  have hleaf : ∀ event ≠ loginRequest, ∀ t ∈ w.handlers event, t.handler.publishes = false := by
    intro event hevent t ht
    exact Bool.eq_false_iff.mpr fun hpub => hevent ((h.publishes ht).mp hpub)
  by_cases hevent : event = loginRequest
  · subst hevent
    refine ⟨_, _, ?_, fun hw =>
      publish_login hw depth (fun t ht => (h.publishes ht).mpr rfl) (hleaf _ (reply_ne data))⟩
    rw [Direct.publish, if_pos rfl]
    refine ⟨h.handlers, h.nextId, h.services, fun i => ?_, ?_, h.listens⟩
    · simp only [World.gain, h.counts, h.handlers, length_subscriptions, hits_subscriptions, Int.natCast_add,
        Int.add_assoc]
    · show w.output ++ _ = _
      have htexts : (w.handlers loginRequest).map (fun t => t.handler.text data ::
          (w.handlers (reply data)).map fun t => t.handler.text data) =
          List.replicate d.attempts (line .auth loginRequest data :: d.lines (reply data) data) := by
        rw [← length_subscriptions, ← h.handlers, ← text_subscriptions, ← h.handlers]
        exact List.map_eq_replicate_iff.mpr fun t ht => congrArg (· :: _) (h.text ht data)
      rw [h.output, List.flatMap, htexts]
  · refine ⟨_, _, ?_, fun hw => publish_leaf hw data (depth + 1) (hleaf event hevent)⟩
    rw [Direct.publish, if_neg hevent]
    refine ⟨h.handlers, h.nextId, h.services, fun i => ?_, ?_, h.listens⟩
    · simp only [World.gain, h.counts, h.handlers, hits_subscriptions, Int.natCast_add]
    · show w.output ++ _ = _
      rw [h.output, h.handlers, text_subscriptions]

theorem Rep.unsubscribe (id : BitVec 64) : Rep (w.unsubscribe id) (d.unsubscribe id) where
  handlers event := by
    show (w.handlers event).filter _ = _
    rw [h.handlers, subscriptions, subscriptions, Direct.unsubscribe, List.filter_flatMap, List.zipIdx_map,
      List.flatMap_map]
    refine congrArg List.flatten (List.map_congr_left fun q _ => ?_)
    show (subscriptionsOf event q).filter _ = _
    rw [subscriptionsOf, List.filter_map, Service.to, List.filter_filter]
    refine congrArg (List.map _) ?_
    simp only [Service.to, Prod.map_fst, List.filter_filter, Bool.and_comm, Function.comp_def]
  nextId := h.nextId
  services := by rw [Direct.unsubscribe, List.length_map]; exact h.services
  counts := h.counts
  output := h.output
  listens s hs p hp := by
    obtain ⟨t, ht, rfl⟩ := List.mem_map.mp hs
    exact h.listens t ht p (List.mem_filter.mp hp).1

/-- A new service, whose subscriptions follow all others. -/
theorem Rep.construct_of {kind : Kind} {w' : World} {live : List (BitVec 64 × String)} {n : BitVec 64}
    (hhandlers : ∀ event, w'.handlers event = w.handlers event ++ subscriptionsOf event (⟨kind, live⟩, w.services))
    (hid : w'.nextId = n) (hservices : w'.services = w.services + 1) (hcounts : w'.counts = w.counts)
    (houtput : w'.output = w.output) (htopics : ∀ p ∈ live, p.2 ∈ topics kind) :
    Rep w' { d with services := d.services ++ [⟨kind, live⟩], nextId := n } where
  handlers event := by
    rw [hhandlers, h.handlers, h.services, subscriptions, subscriptions, List.zipIdx_append, List.flatMap_append]
    simp
  nextId := hid
  services := by rw [hservices, h.services, List.length_append, List.length_singleton]
  counts i := by rw [hcounts, h.counts]
  output := houtput.trans h.output
  listens s hs := by
    rcases List.mem_append.mp hs with hs | hs
    · exact h.listens s hs
    · obtain rfl := List.mem_singleton.mp hs
      exact htopics

theorem Rep.construct (kind : Kind) : Rep (construct w kind) (d.construct kind) := by
  have hlive : ∀ p ∈ (topics kind).zipIdx.map (fun p => (d.nextId + BitVec.ofNat 64 p.2, p.1)),
      p.2 ∈ topics kind := by
    intro p hp
    obtain ⟨q, hq, rfl⟩ := List.mem_map.mp hp
    exact List.fst_mem_of_mem_zipIdx hq
  cases kind with
  | auth =>
    refine h.construct_of (fun event => ?_) ?_ rfl rfl rfl hlive
    · rw [Mediator.construct, subscribe_handlers]
      refine congrArg (w.handlers event ++ ·) ?_
      show _ = subscriptionsOf event (⟨.auth, [(d.nextId + 0#64, loginRequest)]⟩, w.services)
      rw [subscriptionsOf_cons, BitVec.add_zero, ← h.nextId]
      exact (List.append_nil _).symm
    · show w.nextId + 1 = _
      rw [h.nextId]
      rfl
  | logging =>
    refine h.construct_of (fun event => ?_) ?_ rfl rfl rfl hlive
    · rw [Mediator.construct, subscribe_handlers, subscribe_handlers, List.append_assoc]
      refine congrArg (w.handlers event ++ ·) ?_
      show _ = subscriptionsOf event
        (⟨.logging, [(d.nextId + 0#64, authenticated), (d.nextId + 1#64, authFailed)]⟩, w.services)
      rw [subscriptionsOf_cons, subscriptionsOf_cons, BitVec.add_zero, ← h.nextId, handlerOf]
      by_cases hok : event = authenticated
      · subst hok
        rw [if_pos rfl, if_neg authenticated_ne.2.2.symm, if_neg authenticated_ne.2.2.symm, if_pos rfl, if_pos rfl]
        rfl
      · rw [if_neg hok, if_neg (Ne.symm hok), if_neg (Ne.symm hok)]
        exact (List.append_nil _).symm
    · show w.nextId + 1 + 1 = _
      rw [h.nextId, BitVec.add_assoc]
      rfl
  | notification =>
    refine h.construct_of (fun event => ?_) ?_ rfl rfl rfl hlive
    · rw [Mediator.construct, subscribe_handlers]
      refine congrArg (w.handlers event ++ ·) ?_
      show _ = subscriptionsOf event (⟨.notification, [(d.nextId + 0#64, authenticated)]⟩, w.services)
      rw [subscriptionsOf_cons, BitVec.add_zero, ← h.nextId]
      exact (List.append_nil _).symm
    · show w.nextId + 1 = _
      rw [h.nextId]
      rfl

end

theorem Rep.fits_iff {w : World} {d : Direct} (h : Rep w d) : w.Fits ↔ ∀ i, d.counts i < 2 ^ 31 := by
  refine forall_congr' fun i => ?_
  rw [h.counts]
  omega

/-- The one world that a step can lead to, and that it leads to if no counter overflows. -/
theorem Rep.step {w : World} {d : Direct} (h : Rep w d) (depth : Nat) (op : Op) : ∃ w', Rep w' (d.step op) ∧
    (w.Fits → ∀ v, step (depth + 2) w op = some v ↔ v = w' ∧ v.Fits) := by
  cases op with
  | construct kind =>
    refine ⟨_, h.construct kind, fun hw v => ?_⟩
    rw [Mediator.step, Option.some.injEq, eq_comm, iff_self_and]
    rintro rfl
    exact (h.construct kind).fits_iff.mpr (h.fits_iff.mp hw)
  | unsubscribe id =>
    refine ⟨_, h.unsubscribe id, fun hw v => ?_⟩
    rw [Mediator.step, Option.some.injEq, eq_comm, iff_self_and]
    rintro rfl
    exact hw
  | publish event data =>
    obtain ⟨g, ls, hrep, hadds⟩ := h.publish depth event data
    exact ⟨_, hrep, hadds⟩

theorem Direct.counts_le_step (d : Direct) (op : Op) (i : Nat) : d.counts i ≤ (d.step op).counts i := by
  cases op with
  | construct kind => exact Nat.le_refl _
  | unsubscribe id => exact Nat.le_refl _
  | publish event data =>
    rw [Direct.step, Direct.publish]
    split
    · simp only
      omega
    · simp only
      omega

theorem bus_exec (depth : Nat) (ops : List Op) : ∃ w, Rep w (direct.exec ops) ∧
    ∀ v, (bus (depth + 2)).exec ops = some v ↔ v = w ∧ v.Fits := by
  induction ops using List.reverseRecOn with
  | nil =>
    refine ⟨{}, ⟨fun _ => rfl, rfl, rfl, fun _ => rfl, rfl, nofun⟩, fun v => ?_⟩
    have hinit : v = (bus (depth + 2)).init ↔ v = {} := Iff.rfl
    rw [Machine.exec_nil, Option.some.injEq, eq_comm, hinit, iff_self_and]
    rintro rfl
    exact fun _ => ⟨Int.le_refl 0, Int.pow_pos (by decide)⟩
  | append_singleton ops op ih =>
    obtain ⟨w, hrep, hexec⟩ := ih
    obtain ⟨w', hrep', hstep⟩ := hrep.step depth op
    rw [Spec.exec_snoc]
    refine ⟨w', hrep', fun v => ⟨fun hv => ?_, fun ⟨heq, hfits⟩ => ?_⟩⟩
    · obtain ⟨u, o, hu, hs⟩ := (bus (depth + 2)).exec_snoc_some hv
      obtain ⟨rfl, hu⟩ := (hexec u).mp hu
      obtain ⟨v', hv', heq⟩ := Option.map_eq_some_iff.mp hs
      obtain ⟨rfl, -⟩ := Prod.mk.inj heq
      exact (hstep hu v').mp hv'
    · subst heq
      have hw : w.Fits := hrep.fits_iff.mpr fun i =>
        Nat.lt_of_le_of_lt ((direct.exec ops).counts_le_step op i) (hrep'.fits_iff.mp hfits i)
      refine (bus (depth + 2)).exec_snoc_of ((hexec w).mpr ⟨rfl, hw⟩) (o := ()) ?_
      exact congrArg (Option.map _) ((hstep hw v).mpr ⟨rfl, hfits⟩)

theorem bus_defined (depth : Nat) (ops : List Op) : ∃ w, Rep w (direct.exec ops) ∧
    ((∃ v, (bus (depth + 2)).exec ops = some v) ↔ ∀ i, (direct.exec ops).counts i < 2 ^ 31) ∧
    ∀ v, (bus (depth + 2)).exec ops = some v → v = w := by
  obtain ⟨w, hrep, hexec⟩ := bus_exec depth ops
  refine ⟨w, hrep, ?_, fun v hv => ((hexec v).mp hv).1⟩
  rw [← hrep.fits_iff]
  constructor
  · rintro ⟨v, hv⟩
    obtain ⟨rfl, hfits⟩ := (hexec v).mp hv
    exact hfits
  · exact fun hfits => ⟨w, (hexec w).mpr ⟨rfl, hfits⟩⟩

/-- Whatever services are made, unsubscribed and told of something, in any order: two levels of `publish` are enough
for the bus, which ends unless a service counts `2 ^ 31` times, and has counted and printed what the services would
by calling each other. -/
theorem bus_run (depth : Nat) (ops : List Op) :
    ((∃ w, (bus (depth + 2)).exec ops = some w) ↔ ∀ i, (direct.exec ops).counts i < 2 ^ 31) ∧
      ∀ w, (bus (depth + 2)).exec ops = some w →
        (∀ i, w.counts i = (direct.exec ops).counts i) ∧ w.output = (direct.exec ops).output := by
  obtain ⟨w, hrep, hdefined, hunique⟩ := bus_defined depth ops
  refine ⟨hdefined, fun v hv => ?_⟩
  obtain rfl := hunique v hv
  exact ⟨hrep.counts, hrep.output⟩

/-! ## Login attempts -/

/-- The services have been made, and none of their subscriptions is gone. -/
structure Made (d : Direct) (kinds : List Kind) : Prop where
  kinds : d.services.map Service.kind = kinds
  live : ∀ s ∈ d.services, s.live.map Prod.snd = topics s.kind

theorem length_to {s : Service} (h : s.live.map Prod.snd = topics s.kind) (event : String) :
    (s.to event).length = (topics s.kind).count event := by
  rw [← h, List.count, List.countP_map, Service.to, ← List.countP_eq_length_filter]
  rfl

section
variable {d : Direct} {kinds : List Kind} (h : Made d kinds)

include h

theorem Made.told (event : String) (i : Nat) :
    d.told event i = kinds[i]?.elim 0 fun kind => (topics kind).count event := by
  rw [← h.kinds, List.getElem?_map, Direct.told]
  cases hs : d.services[i]? with
  | none => rfl
  | some s => exact length_to (h.live s (List.mem_of_getElem? hs)) event

theorem Made.attempts : d.attempts = kinds.count .auth := by
  have hone : ∀ kind, (topics kind).count loginRequest = if kind = .auth then 1 else 0 := by
    intro kind
    cases kind <;> rfl
  have hsum : ∀ l : List Kind, (l.map fun kind => (topics kind).count loginRequest).sum = l.count .auth := by
    intro l
    induction l with
    | nil => rfl
    | cons kind l ih =>
      rw [List.map_cons, List.sum_cons, ih, hone, List.count_cons, Nat.add_comm, beq_eq_decide]; simp
  rw [← hsum, ← h.kinds, List.map_map, Direct.attempts]
  exact congrArg List.sum (List.map_congr_left fun s hs => length_to (h.live s hs) loginRequest)

theorem Made.construct (kind : Kind) : Made (d.construct kind) (kinds ++ [kind]) := by
  refine ⟨by rw [Direct.construct, List.map_append, h.kinds]; rfl, fun s hs => ?_⟩
  rcases List.mem_append.mp hs with hs | hs
  · exact h.live s hs
  · obtain rfl := List.mem_singleton.mp hs
    show ((topics kind).zipIdx.map _).map Prod.snd = topics kind
    rw [List.map_map]
    exact List.zipIdx_map_fst 0 (topics kind)

theorem Made.publish (event data : String) : Made (d.publish event data) kinds := by
  rw [Direct.publish]
  split
  · exact ⟨h.kinds, h.live⟩
  · exact ⟨h.kinds, h.live⟩

end

/-- What a service has counted after the logins of `users`, with so many `AuthService`s. -/
def expected (auths : Nat) (users : List String) : Kind → Nat
  | .auth => users.countP accepted
  | .logging => auths * users.length
  | .notification => auths * users.countP accepted

theorem count_reply (kind : Kind) (user : String) : (topics kind).count (reply user) =
    match kind with
    | .auth => 0
    | .logging => 1
    | .notification => if accepted user then 1 else 0 := by
  rw [reply]
  cases kind <;> cases accepted user <;> rfl

theorem expected_snoc (auths : Nat) (users : List String) (user : String) (kind : Kind) :
    expected auths (users ++ [user]) kind =
      expected auths users kind + auths * (topics kind).count (reply user) +
        if accepted user then (topics kind).count loginRequest else 0 := by
  rw [count_reply]
  cases kind with
  | auth =>
    simp [expected, List.countP_append, List.countP_singleton]
    rfl
  | logging =>
    simp [expected, Nat.mul_add]
    exact fun _ => rfl
  | notification =>
    simp only [expected, List.countP_append, List.countP_singleton, Nat.mul_add]
    cases accepted user <;> rfl

theorem direct_construct (kinds : List Kind) :
    Made (direct.exec (kinds.map .construct)) kinds ∧ ∀ i, (direct.exec (kinds.map .construct)).counts i = 0 := by
  induction kinds using List.reverseRecOn with
  | nil => exact ⟨⟨rfl, nofun⟩, fun _ => rfl⟩
  | append_singleton kinds kind ih =>
    rw [List.map_append, List.map_singleton, Spec.exec_snoc]
    exact ⟨ih.1.construct kind, ih.2⟩

theorem direct_logins (kinds : List Kind) (users : List String) :
    Made (direct.exec (kinds.map .construct ++ users.map (.publish loginRequest))) kinds ∧
      ∀ i, (direct.exec (kinds.map .construct ++ users.map (.publish loginRequest))).counts i =
        kinds[i]?.elim 0 (expected (kinds.count .auth) users) := by
  induction users using List.reverseRecOn with
  | nil =>
    obtain ⟨hmade, hcounts⟩ := direct_construct kinds
    rw [List.map_nil, List.append_nil]
    refine ⟨hmade, fun i => ?_⟩
    rw [hcounts]
    cases kinds[i]? with
    | none => rfl
    | some kind => cases kind <;> rfl
  | append_singleton users user ih =>
    obtain ⟨hmade, hcounts⟩ := ih
    rw [List.map_append, List.map_singleton, ← List.append_assoc, Spec.exec_snoc]
    refine ⟨hmade.publish loginRequest user, fun i => ?_⟩
    show (Direct.publish _ loginRequest user).counts i = _
    rw [Direct.publish, if_pos rfl]
    simp only [hcounts, hmade.told, hmade.attempts]
    cases kinds[i]? with
    | none => simp
    | some kind => exact (expected_snoc _ users user kind).symm

/-- After the logins of `users`, with services made in any order: an `AuthService` has counted those it accepted,
and each of the others has heard of its logins once from every `AuthService`; these are `int`s, and the logins end
unless one overflows. -/
theorem logins_run (depth : Nat) (kinds : List Kind) (users : List String) :
    ((∃ w, (bus (depth + 2)).exec (kinds.map .construct ++ users.map (.publish loginRequest)) = some w) ↔
        ∀ kind ∈ kinds, expected (kinds.count .auth) users kind < 2 ^ 31) ∧
      ∀ w, (bus (depth + 2)).exec (kinds.map .construct ++ users.map (.publish loginRequest)) = some w →
        ∀ i kind, kinds[i]? = some kind → w.counts i = expected (kinds.count .auth) users kind := by
  have hcounts := (direct_logins kinds users).2
  obtain ⟨w, hrep, hdefined, hunique⟩ :=
    bus_defined depth (kinds.map .construct ++ users.map (.publish loginRequest))
  refine ⟨?_, fun v hv i kind hi => ?_⟩
  · simp only [hdefined, hcounts]
    refine ⟨fun h kind hkind => ?_, fun h i => ?_⟩
    · obtain ⟨i, hi⟩ := List.getElem?_of_mem hkind
      simpa [hi] using h i
    · cases hi : kinds[i]? with
      | none => exact Nat.two_pow_pos 31
      | some kind => exact h kind (List.mem_of_getElem? hi)
  · obtain rfl := hunique v hv
    rw [hrep.counts, hcounts, hi]
    rfl

end Playground.Mediator
