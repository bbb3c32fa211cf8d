import GoAtlas.Lib.Moves
import GoAtlas.Selfjwt.KeyCache

/-!
# Keys after an invalidation

A key is fresh for a generation when the provider returned it in a lookup that was sent after every
covering invalidation of that generation. Cached keys are fresh for the generation of the cache: an
invalidation deletes what it covers, and a lookup that overlapped one is not stored. What a shared
lookup returns is fresh for the generation in its flight key, and that is the one that all of its
callers have read. So a resolution gets a key that is fresh for its start.
-/

namespace GoAtlas.Selfjwt

open Lib

/-! ## The cache never exceeds its cap -/

section Cap

variable {K : Type} {cfg : Config} {items : Items K} {order : List CacheKey} {k : CacheKey}

theorem evictLoop_sublist (maxEntries : Int) (order : List CacheKey) (items : Items K) :
    (evictLoop maxEntries order items).Sublist items := by
  induction order generalizing items with
  | nil => exact .refl items
  | cons k order ih =>
    unfold evictLoop
    split
    · exact .refl items
    · exact (ih _).trans List.filter_sublist

theorem length_evictLoop {maxEntries : Int} (hmax : 0 < maxEntries) (horder : Ranges order items) :
    (evictLoop maxEntries order items).length < maxEntries := by
  induction order generalizing items with
  | nil =>
    have hnil : items = [] := List.eq_nil_iff_forall_not_mem.mpr fun e he => by cases horder e he
    rw [hnil]
    exact hmax
  | cons k order ih =>
    unfold evictLoop
    split
    · assumption
    · refine ih fun e he => ?_
      obtain ⟨he, hne⟩ := List.mem_filter.mp he
      rcases List.mem_cons.mp (horder e he) with heq | hmem
      · exact absurd heq (by simpa using hne)
      · exact hmem

theorem Ranges.filter (h : Ranges order items) (q : CacheKey × CacheEntry K → Bool) :
    Ranges order (items.filter q) :=
  fun e he => h e (List.mem_filter.mp he).1

/-- What a put leaves of the other entries. -/
theorem putLocked_eq (cfg : Config) (k : CacheKey) (key : K) (now clock : Int)
    (order : List CacheKey) (items : Items K) :
    ∃ kept : Items K, kept.Sublist items ∧
      (0 < cfg.maxEntries → Ranges order items → (kept.length : Int) < cfg.maxEntries) ∧
      putLocked cfg k key now clock order items =
        (k, ⟨key, now + cfg.ttl, clock⟩) :: kept.filter fun e => e.1 ≠ k := by
  unfold putLocked
  by_cases hfull : 0 < cfg.maxEntries ∧ cfg.maxEntries ≤ items.length
  · refine ⟨evictLocked cfg.maxEntries now order items,
      (evictLoop_sublist _ _ _).trans List.filter_sublist, fun hmax horder =>
      length_evictLoop hmax (horder.filter _), ?_⟩
    rw [if_pos hfull]
  · refine ⟨items, .refl items, fun hmax _ => ?_, ?_⟩
    · omega
    · rw [if_neg hfull]

theorem length_putLocked (hmax : 0 < cfg.maxEntries) (horder : Ranges order items) (key : K)
    (now clock : Int) :
    ((putLocked cfg k key now clock order items).length : Int) ≤ cfg.maxEntries := by
  obtain ⟨kept, -, hlen, heq⟩ := putLocked_eq cfg k key now clock order items
  rw [heq, List.length_cons]
  have hkept := hlen hmax horder
  have hfilter := List.length_filter_le (fun e : CacheKey × CacheEntry K => decide (e.1 ≠ k)) kept
  omega

theorem mem_putLocked {key : K} {now clock : Int} {e : CacheKey × CacheEntry K}
    (h : e ∈ putLocked cfg k key now clock order items) :
    e = (k, ⟨key, now + cfg.ttl, clock⟩) ∨ e ∈ items := by
  obtain ⟨kept, hsub, -, heq⟩ := putLocked_eq cfg k key now clock order items
  rw [heq] at h
  rcases List.mem_cons.mp h with h | h
  · exact .inl h
  · exact .inr (hsub.subset (List.mem_filter.mp h).1)

end Cap

/-! ## Fresh keys -/

section Fresh

variable {K : Type} {cfg : Config}

/-- What freshness and the times are judged by. -/
structure View (K : Type) where
  clock : Int
  invalidations : List Invalidation
  lookups : List (Lookup K)

abbrev Sys.view (s : Sys K) : View K := ⟨s.clock, s.invalidations, s.lookups⟩

/-- The provider returned the key for `k`, and was asked after every invalidation of `k` among the
first `gen`. -/
def View.Fresh (u : View K) (k : CacheKey) (gen : Nat) (key : K) : Prop :=
  ∃ l ∈ u.lookups, l.of = k ∧ l.key = key ∧
    ∀ n i, u.invalidations[n]? = some i → i.covers k = true → n < gen → n < l.sent

/-- Time passes, and nothing that happened is forgotten. -/
structure Later (u u' : View K) : Prop where
  clock : u.clock ≤ u'.clock
  invalidations : u.invalidations <+: u'.invalidations
  lookups : u.lookups ⊆ u'.lookups

theorem Later.refl (u : View K) : Later u u := ⟨le_refl _, List.prefix_rfl, List.Subset.refl _⟩

theorem Later.gen {u u' : View K} (h : Later u u') :
    u.invalidations.length ≤ u'.invalidations.length :=
  h.invalidations.length_le

variable {u u' : View K} {k : CacheKey} {gen gen' : Nat} {key : K}

theorem View.Fresh.mono (h : u.Fresh k gen key) (hgen : gen' ≤ gen) : u.Fresh k gen' key := by
  obtain ⟨l, hl, hof, hkey, hsent⟩ := h
  exact ⟨l, hl, hof, hkey, fun n i hi hcovers hn => hsent n i hi hcovers (by omega)⟩

theorem View.Fresh.later (h : u.Fresh k gen key) (hlater : Later u u')
    (hgen : gen ≤ u.invalidations.length) :
    u'.Fresh k gen key := by
  obtain ⟨l, hl, hof, hkey, hsent⟩ := h
  refine ⟨l, hlater.lookups hl, hof, hkey, fun n i hi hcovers hn => hsent n i ?_ hcovers hn⟩
  have hlt : n < u.invalidations.length := by omega
  obtain ⟨rest, hrest⟩ := hlater.invalidations
  rwa [← hrest, List.getElem?_append_left hlt] at hi

theorem View.Fresh.invalidate (h : u.Fresh k u.invalidations.length key) {i : Invalidation}
    (hi : i.covers k = false) :
    View.Fresh ⟨u.clock, u.invalidations ++ [i], u.lookups⟩ k (u.invalidations.length + 1) key := by
  obtain ⟨l, hl, hof, hkey, hsent⟩ := h
  refine ⟨l, hl, hof, hkey, fun n j hj hcovers hn => ?_⟩
  by_cases hlast : n = u.invalidations.length
  · rw [hlast, List.getElem?_concat_length] at hj
    cases hj
    rw [hi] at hcovers
    cases hcovers
  · have hlt : n < u.invalidations.length := by omega
    rw [List.getElem?_append_left hlt] at hj
    exact hsent n j hj hcovers hlt

/-- An entry expires within a ttl of the time it was stored. -/
def CacheEntry.Timely (cfg : Config) (e : CacheEntry K) : Prop := e.expires ≤ e.stored + cfg.ttl

/-- A cached key was used within a ttl of the time it was stored. -/
def Source.Timely (cfg : Config) : Source K → Prop
  | .cache e used => used < e.stored + cfg.ttl
  | .provider _ => True

/-- A fresh key, used in time. -/
structure View.Good (u : View K) (cfg : Config) (k : CacheKey) (gen : Nat) (source : Source K) :
    Prop where
  fresh : u.Fresh k gen source.key
  timely : source.Timely cfg

/-- An entry that may be used for `k`. -/
structure View.Usable (u : View K) (cfg : Config) (k : CacheKey) (gen : Nat) (e : CacheEntry K) :
    Prop where
  fresh : u.Fresh k gen e.key
  timely : e.Timely cfg

theorem good_of_use {s : Sys K} {e : CacheEntry K} {source : Source K}
    (he : s.view.Usable cfg k gen e) (huse : s.use e = some source) :
    s.view.Good cfg k gen source := by
  unfold Sys.use at huse
  split at huse
  · rename_i hlt
    cases huse
    refine ⟨he.fresh, ?_⟩
    have htimely := he.timely
    unfold CacheEntry.Timely at htimely
    change s.clock < e.stored + cfg.ttl
    omega
  · cases huse

/-! ## The invariant -/

def Flight.Ok (u : View K) (cfg : Config) (k : CacheKey) (gen : Nat) : Flight K → Prop
  | .get | .send | .returned none | .done none => True
  | .check e => u.Usable cfg k gen e
  | .lookup sent => gen ≤ sent
  | .put key => u.Fresh k gen key
  | .locked key now => u.Fresh k gen key ∧ now ≤ u.clock
  | .returned (some source) | .done (some source) => u.Good cfg k gen source

def Stage.Ok (u : View K) (calls : Nat → Option (Call K)) (cfg : Config) (k : CacheKey)
    (since : Nat) : Stage K → Prop
  | .get | .generation | .done none => True
  | .check e => u.Usable cfg k since e
  | .share gen => since ≤ gen ∧ gen ≤ u.invalidations.length
  | .wait gen c => since ≤ gen ∧ ∃ call, calls c = some call ∧ call.of = k ∧ call.gen = gen
  | .done (some source) => u.Good cfg k since source

structure Call.Ok (u : View K) (cfg : Config) (call : Call K) : Prop where
  gen : call.gen ≤ u.invalidations.length
  flight : call.flight.Ok u cfg call.of call.gen

structure Resolution.Ok (u : View K) (calls : Nat → Option (Call K)) (cfg : Config)
    (r : Resolution K) : Prop where
  since : r.since ≤ u.invalidations.length
  stage : r.stage.Ok u calls cfg r.of r.since

structure Inv (cfg : Config) (s : Sys K) : Prop where
  items : ∀ k e, (k, e) ∈ s.items → s.view.Usable cfg k s.gen e
  cap : 0 < cfg.maxEntries → (s.items.length : Int) ≤ cfg.maxEntries
  group : ∀ fk c, s.group fk = some c → ∃ call, s.calls c = some call ∧
    flightKey call.of call.gen = fk
  calls : ∀ c call, s.calls c = some call → call.Ok s.view cfg
  next : ∀ c call, s.calls c = some call → c < s.nextCall
  ops : ∀ p r, s.ops p = some r → r.Ok s.view s.calls cfg

def CallsLater (calls calls' : Nat → Option (Call K)) : Prop :=
  ∀ c call, calls c = some call → ∃ call', calls' c = some call' ∧ call'.of = call.of ∧
    call'.gen = call.gen

theorem CallsLater.refl (calls : Nat → Option (Call K)) : CallsLater calls calls :=
  fun _ call h => ⟨call, h, rfl, rfl⟩

variable {calls calls' : Nat → Option (Call K)}

theorem View.Good.later {source : Source K} (h : u.Good cfg k gen source) (hlater : Later u u')
    (hgen : gen ≤ u.invalidations.length) : u'.Good cfg k gen source :=
  ⟨h.fresh.later hlater hgen, h.timely⟩

theorem View.Usable.later {e : CacheEntry K} (h : u.Usable cfg k gen e) (hlater : Later u u')
    (hgen : gen ≤ u.invalidations.length) : u'.Usable cfg k gen e :=
  ⟨h.fresh.later hlater hgen, h.timely⟩

theorem Call.Ok.later {call : Call K} (h : call.Ok u cfg) (hlater : Later u u') :
    call.Ok u' cfg := by
  refine ⟨h.gen.trans hlater.gen, ?_⟩
  obtain ⟨k, gen, flight⟩ := call
  have hflight := h.flight
  cases flight with
  | get => trivial
  | send => trivial
  | check e => exact View.Usable.later hflight hlater h.gen
  | lookup sent => exact hflight
  | put key => exact View.Fresh.later hflight hlater h.gen
  | locked key now => exact ⟨hflight.1.later hlater h.gen, hflight.2.trans hlater.clock⟩
  | returned source =>
    cases source with
    | none => trivial
    | some source => exact View.Good.later hflight hlater h.gen
  | done source =>
    cases source with
    | none => trivial
    | some source => exact View.Good.later hflight hlater h.gen

theorem Resolution.Ok.later {r : Resolution K} (h : r.Ok u calls cfg) (hlater : Later u u')
    (hcalls : CallsLater calls calls') : r.Ok u' calls' cfg := by
  refine ⟨h.since.trans hlater.gen, ?_⟩
  obtain ⟨k, since, stage⟩ := r
  have hstage := h.stage
  cases stage with
  | get => trivial
  | generation => trivial
  | check e => exact View.Usable.later hstage hlater h.since
  | share gen => exact ⟨hstage.1, hstage.2.trans hlater.gen⟩
  | wait gen c =>
    obtain ⟨hsince, call, hcall, hof, hgen⟩ := hstage
    obtain ⟨call', hcall', hof', hgen'⟩ := hcalls c call hcall
    exact ⟨hsince, call', hcall', hof'.trans hof, hgen'.trans hgen⟩
  | done source =>
    cases source with
    | none => trivial
    | some source => exact View.Good.later hstage hlater h.since

end Fresh

/-! ## One step -/

section Step

variable {K : Type} {cfg : Config} {s s' : Sys K} {p c : Nat} {r : Resolution K} {call : Call K}

theorem Inv.setOp (h : Inv cfg s) (hr : r.Ok s.view s.calls cfg) :
    Inv cfg { s with ops := Function.update s.ops p (some r) } where
  items := h.items
  cap := h.cap
  group := h.group
  calls := h.calls
  next := h.next
  ops := forall_update_some hr fun q r' _ => h.ops q r'

theorem callsLater_update (hcall : s.calls c = some call) (flight : Flight K) :
    CallsLater s.calls (Function.update s.calls c (some { call with flight := flight })) := by
  intro d call' hd
  by_cases hdc : d = c
  · subst hdc
    rw [hcall] at hd
    cases hd
    exact ⟨{ call with flight := flight }, by simp, rfl, rfl⟩
  · exact ⟨call', by simpa [hdc] using hd, rfl, rfl⟩

section

variable (h : Inv cfg s)
include h

theorem Inv.setCall (hcall : s.calls c = some call) {flight : Flight K}
    (hflight : flight.Ok s.view cfg call.of call.gen) :
    Inv cfg { s with calls := Function.update s.calls c (some { call with flight := flight }) }
      where
  items := h.items
  cap := h.cap
  group fk d hd := by
    obtain ⟨call', hcall', hfk⟩ := h.group fk d hd
    obtain ⟨call'', hcall'', hof, hgen⟩ := callsLater_update hcall flight d call' hcall'
    exact ⟨call'', hcall'', by rw [hof, hgen, hfk]⟩
  calls := forall_update_some ⟨(h.calls c call hcall).gen, hflight⟩ fun d call' _ => h.calls d call'
  next := forall_update_some (h.next c call hcall) fun d call' _ => h.next d call'
  ops q r hr := (h.ops q r hr).later (.refl _) (callsLater_update hcall flight)

theorem Inv.advance {clock : Int} {lookups : List (Lookup K)}
    (hclock : s.clock ≤ clock) (hlookups : s.lookups ⊆ lookups) :
    Inv cfg { s with clock := clock, lookups := lookups } := by
  have hlater : Later s.view ({ s with clock := clock, lookups := lookups } : Sys K).view :=
    ⟨hclock, List.prefix_rfl, hlookups⟩
  exact {
    items := fun k e he => (h.items k e he).later hlater (le_refl _)
    cap := h.cap
    group := h.group
    calls := fun c call hcall => (h.calls c call hcall).later hlater
    next := h.next
    ops := fun q r hr => (h.ops q r hr).later hlater (.refl _) }

theorem Inv.invalidate (i : Invalidation) : Inv cfg (s.invalidate i) := by
  have hlater : Later s.view (s.invalidate i).view :=
    ⟨le_refl _, List.prefix_append _ _, List.Subset.refl _⟩
  exact {
    items := fun k e he => by
      obtain ⟨he, hcovers⟩ := List.mem_filter.mp he
      have husable := h.items k e he
      refine ⟨?_, husable.timely⟩
      have hgen : (s.invalidate i).gen = s.gen + 1 := List.length_append
      rw [hgen]
      exact husable.fresh.invalidate (by simpa using hcovers)
    cap := fun hmax => by
      have hle := List.length_filter_le (fun e : CacheKey × CacheEntry K => !i.covers e.1) s.items
      have hcap := h.cap hmax
      change ((s.items.filter fun e => !i.covers e.1).length : Int) ≤ cfg.maxEntries
      omega
    group := h.group
    calls := fun c call hcall => (h.calls c call hcall).later hlater
    next := h.next
    ops := fun q r hr => (h.ops q r hr).later hlater (.refl _) }

theorem Inv.start (k : CacheKey) :
    Inv cfg { s with ops := Function.update s.ops p (some ⟨k, s.gen, .get⟩) } :=
  h.setOp ⟨le_refl _, trivial⟩

theorem Inv.usable_of_lookup {k : CacheKey} {e : CacheEntry K} {gen : Nat}
    (he : s.items.lookup k = some e) (hgen : gen ≤ s.gen) : s.view.Usable cfg k gen e := by
  have husable := h.items k e (Assoc.mem_of_lookup he)
  exact ⟨husable.fresh.mono hgen, husable.timely⟩

theorem Inv.newCall {k : CacheKey} {gen : Nat} (hgen : gen ≤ s.gen) :
    Inv cfg { s with
      group := Function.update s.group (flightKey k gen) (some s.nextCall)
      calls := Function.update s.calls s.nextCall (some ⟨k, gen, .get⟩)
      nextCall := s.nextCall + 1 } := by
  have hnew : ∀ d call, s.calls d = some call → d ≠ s.nextCall := by
    intro d call hd heq
    have := h.next d call hd
    omega
  have hkeep : CallsLater s.calls (Function.update s.calls s.nextCall (some ⟨k, gen, .get⟩)) := by
    intro d call hd
    exact ⟨call, by simpa [hnew d call hd] using hd, rfl, rfl⟩
  exact {
    items := h.items
    cap := h.cap
    group := by
      refine forall_update_some ⟨⟨k, gen, .get⟩, by simp, rfl⟩ fun fk d _ hd => ?_
      obtain ⟨call, hcall, hfk⟩ := h.group fk d hd
      exact ⟨call, by simpa [hnew d call hcall] using hcall, hfk⟩
    calls := forall_update_some ⟨hgen, trivial⟩ fun d call _ => h.calls d call
    next := forall_update_some (Nat.lt_succ_self _) fun d call _ hcall =>
      Nat.lt_succ_of_lt (h.next d call hcall)
    ops := fun q r hr => (h.ops q r hr).later (.refl _) hkeep }

theorem Inv.move (hr : r.Ok s.view s.calls cfg) {m : Move} {stage : Stage K}
    (hmove : s.move r.of r.stage m = some (s', stage)) :
    Inv cfg s' ∧ ({ r with stage := stage } : Resolution K).Ok s'.view s'.calls cfg := by
  obtain ⟨k, since, before⟩ := r
  obtain ⟨hsince, hstage⟩ := hr
  simp only at hmove hsince hstage
  unfold Sys.move at hmove
  split at hmove
  · -- the cache is read
    split at hmove
    · rename_i e he
      cases hmove
      exact ⟨h, hsince, h.usable_of_lookup he hsince⟩
    · cases hmove
      exact ⟨h, hsince, trivial⟩
  · -- the clock is read
    split at hmove
    · rename_i source huse
      cases hmove
      exact ⟨h, hsince, good_of_use hstage huse⟩
    · cases hmove
      exact ⟨h, hsince, trivial⟩
  · cases hmove
    exact ⟨h, hsince, hsince, le_refl _⟩
  · -- a lookup under the flight key is for the same key and generation
    obtain ⟨hgen, hnow⟩ := hstage
    split at hmove
    · rename_i c hgroup
      cases hmove
      obtain ⟨call, hcall, hfk⟩ := h.group _ c hgroup
      obtain ⟨hof, hcallgen⟩ := flightKey_inj hfk
      exact ⟨h, hsince, hgen, call, hcall, hof, hcallgen⟩
    · cases hmove
      exact ⟨h.newCall hnow, hsince, hgen, ⟨k, _, .get⟩, by simp, rfl, rfl⟩
  · -- the result of the shared lookup
    obtain ⟨hgen, call, hcall, hof, hcallgen⟩ := hstage
    split at hmove
    · rename_i of gen source hdone
      cases hmove
      rw [hdone] at hcall
      cases hcall
      refine ⟨h, hsince, ?_⟩
      have hflight := (h.calls _ _ hdone).flight
      cases source with
      | none => trivial
      | some source =>
        cases hof
        cases hcallgen
        exact ⟨hflight.fresh.mono hgen, hflight.timely⟩
    · cases hmove
  · cases hmove
    exact ⟨h, hsince, trivial⟩
  · cases hmove

end

theorem fresh_of_answer {k : CacheKey} {key : K} {gen sent : Nat} (hsent : gen ≤ sent) :
    View.Fresh ⟨s.clock, s.invalidations, ⟨k, key, sent⟩ :: s.lookups⟩ k gen key :=
  ⟨⟨k, key, sent⟩, List.mem_cons_self, rfl, rfl, fun _ _ _ _ hn => hn.trans_le hsent⟩

theorem Inv.put (h : Inv cfg s) {k : CacheKey} {key : K} {now : Int} {order : List CacheKey}
    (hfresh : s.view.Fresh k s.gen key) (hnow : now ≤ s.clock) (horder : Ranges order s.items) :
    Inv cfg { s with items := putLocked cfg k key now s.clock order s.items } where
  items k' e he := by
    rcases mem_putLocked he with heq | he
    · cases heq
      refine ⟨hfresh, ?_⟩
      change now + cfg.ttl ≤ s.clock + cfg.ttl
      omega
    · exact h.items k' e he
  cap hmax := length_putLocked hmax horder key now s.clock
  group := h.group
  calls := h.calls
  next := h.next
  ops := h.ops

theorem Inv.finish (h : Inv cfg s) (fk : Bytes) :
    Inv cfg { s with group := Function.update s.group fk none } where
  items := h.items
  cap := h.cap
  group fk' c hc := by
    change Function.update s.group fk none fk' = some c at hc
    by_cases hfk : fk' = fk
    · rw [hfk, Function.update_self] at hc
      cases hc
    · rw [Function.update_of_ne hfk] at hc
      exact h.group fk' c hc
  calls := h.calls
  next := h.next
  ops := h.ops

theorem Inv.callMove (h : Inv cfg s) (hcall : call.Ok s.view cfg) {m : FlightMove K}
    {flight : Flight K} (hmove : s.callMove cfg call call.flight m = some (s', flight)) :
    Inv cfg s' ∧ s'.calls = s.calls ∧ flight.Ok s'.view cfg call.of call.gen := by
  obtain ⟨k, gen, before⟩ := call
  obtain ⟨hgen, hflight⟩ := hcall
  simp only at hmove hgen hflight
  unfold Sys.callMove at hmove
  split at hmove
  · split at hmove
    · rename_i e he
      cases hmove
      exact ⟨h, rfl, h.usable_of_lookup he hgen⟩
    · cases hmove
      exact ⟨h, rfl, trivial⟩
  · split at hmove
    · rename_i source huse
      cases hmove
      exact ⟨h, rfl, good_of_use hflight huse⟩
    · cases hmove
      exact ⟨h, rfl, trivial⟩
  · -- the provider is asked
    cases hmove
    exact ⟨h, rfl, hgen⟩
  · cases hmove
    exact ⟨h.advance (le_refl _) (List.subset_cons_self _ _), rfl, fresh_of_answer hflight⟩
  · cases hmove
    exact ⟨h, rfl, trivial⟩
  · cases hmove
    refine ⟨h, rfl, ?_⟩
    split
    · exact ⟨hflight, trivial⟩
    · exact ⟨hflight, le_refl _⟩
  · -- the generation is compared
    obtain ⟨hfresh, hnow⟩ := hflight
    split at hmove
    · rename_i hsame
      split at hmove
      · rename_i horder
        cases hmove
        exact ⟨h.put (hsame ▸ hfresh) hnow horder, rfl, hfresh, trivial⟩
      · cases hmove
    · cases hmove
      exact ⟨h, rfl, hfresh, trivial⟩
  · rename_i source
    cases hmove
    refine ⟨h.finish _, rfl, ?_⟩
    cases source with
    | none => trivial
    | some source => exact hflight
  · cases hmove

theorem Inv.step (h : Inv cfg s) {a : Action K} (hstep : s.step cfg a = some s') : Inv cfg s' := by
  cases a with
  | tick elapsed =>
    cases hstep
    exact h.advance (by simp) (List.Subset.refl _)
  | invalidate i =>
    cases hstep
    exact h.invalidate i
  | start p k =>
    simp only [Sys.step] at hstep
    split at hstep
    · cases hstep
      exact h.start k
    · cases hstep
  | op p m =>
    obtain ⟨r, hr, hstep⟩ := Option.bind_eq_some_iff.mp hstep
    obtain ⟨⟨s₁, stage⟩, hmove, rfl⟩ := Option.map_eq_some_iff.mp hstep
    obtain ⟨hinv, hok⟩ := h.move (h.ops p r hr) hmove
    exact hinv.setOp hok
  | call c m =>
    obtain ⟨call, hcall, hstep⟩ := Option.bind_eq_some_iff.mp hstep
    obtain ⟨⟨s₁, flight⟩, hmove, rfl⟩ := Option.map_eq_some_iff.mp hstep
    obtain ⟨hinv, hcalls, hok⟩ := h.callMove (h.calls c call hcall) hmove
    exact hinv.setCall (hcalls ▸ hcall) hok

theorem Inv.init (cfg : Config) (clock : Int) : Inv cfg (.init clock : Sys K) where
  items := nofun
  cap hmax := hmax.le
  group := nofun
  calls := nofun
  next := nofun
  ops := nofun

end Step

/-! ## Whole runs -/

/-- In every run: a resolution ends with a key that the provider returned for exactly its subject
and key id, in a lookup that was sent after every covering invalidation before the resolution
started; a cached key is used less than a ttl after it was stored, by resolutions and by shared
lookups; and the cache keeps to its cap. -/
theorem invalidation_fences {K : Type} (cfg : Config) (clock : Int)
    (actions : List (Action K)) (s : Sys K)
    (hrun : (Sys.machine cfg).run (.init clock) actions = some s) :
    (∀ p r source, s.ops p = some r → r.stage = .done (some source) →
      ∃ l ∈ s.lookups, l.of = r.of ∧ l.key = source.key ∧
        ∀ n i, s.invalidations[n]? = some i → i.covers r.of = true → n < r.since → n < l.sent) ∧
    (∀ p r e used, s.ops p = some r → r.stage = .done (some (.cache e used)) →
    used < e.stored + cfg.ttl) ∧
    (∀ c call e used, s.calls c = some call → call.flight = .done (some (.cache e used)) →
    used < e.stored + cfg.ttl) ∧
    (0 < cfg.maxEntries → (s.items.length : Int) ≤ cfg.maxEntries) := by
  have hinv : Inv cfg s :=
    Machine.invariant_run (fun _ _ => True) (Inv cfg) (fun _ _ _ hi _ hstep => hi.step hstep)
    (Inv.init cfg clock) (Machine.along_of_mem (fun _ _ _ => trivial) _) hrun
  refine ⟨fun p r source hr hdone => ?_, fun p r e used hr hdone => ?_,
    fun c call e used hcall hdone => ?_, hinv.cap⟩
  · have hstage := (hinv.ops p r hr).stage
    rw [hdone] at hstage
    exact hstage.fresh
  · have hstage := (hinv.ops p r hr).stage
    rw [hdone] at hstage
    exact hstage.timely
  · have hflight := (hinv.calls c call hcall).flight
    rw [hdone] at hflight
    exact hflight.timely

private def rotated : CacheKey := ⟨[115], [107]⟩

/-- A lookup has the old key when the key is invalidated; it is shared by a caller from before. A
resolution that starts then does not join it, and finds nothing in the cache. -/
private def overlapping : List (Action Nat) :=
  [.start 0 rotated, .op 0 .step, .op 0 .step, .op 0 .step, .call 0 .step, .call 0 .step,
    .call 0 (.answer (some 1)), .invalidate (.key rotated), .start 1 rotated, .call 0 .step,
    .call 0 (.put []), .op 1 .step, .op 1 .step, .op 1 .step,
    .call 1 .step, .call 1 .step, .tick 3, .call 1 (.answer (some 2)), .call 1 .step,
      .call 1 (.put []), .call 1 .finish,
    .call 0 .finish, .op 0 .step, .op 1 .step, .start 2 rotated, .op 2 .step, .op 2 .step]

theorem invalidation_fences_overlapping :
    ∃ s : Sys Nat, (Sys.machine ⟨10, 1⟩).run (.init 0) overlapping = some s ∧
      s.ops 0 = some ⟨rotated, 0, .done (some (.provider 1))⟩ ∧
      s.ops 2 = some ⟨rotated, 1, .done (some (.cache ⟨2, 13, 3⟩ 3))⟩ ∧
      (∃ l ∈ s.lookups, l.of = rotated ∧ l.key = 2 ∧ 0 < l.sent) ∧ (3 : Int) < 3 + 10 ∧
      (s.items.length : Int) ≤ 1 := by
  have hrun : ((Sys.machine ⟨10, 1⟩).run (.init 0) overlapping).map
      (fun s : Sys Nat => (s.ops 0, s.ops 2, s.invalidations)) =
      some (some ⟨rotated, 0, .done (some (.provider 1))⟩,
        some ⟨rotated, 1, .done (some (.cache ⟨2, 13, 3⟩ 3))⟩, [.key rotated]) := by
    decide +kernel
  obtain ⟨s, hs, hvals⟩ := Option.map_eq_some_iff.mp hrun
  simp only [Prod.mk.injEq] at hvals
  obtain ⟨hold, hnew, hinvalidations⟩ := hvals
  obtain ⟨hfresh, htimely, -, hcap⟩ := invalidation_fences ⟨10, 1⟩ 0 overlapping s hs
  obtain ⟨l, hl, hof, hkey, hsent⟩ := hfresh 2 _ _ hnew rfl
  refine ⟨s, hs, hold, hnew, ⟨l, hl, hof, hkey, ?_⟩, htimely 2 _ _ _ hnew rfl, hcap (by decide)⟩
  exact hsent 0 (.key rotated) (by rw [hinvalidations]; rfl) (by decide) (by decide)

end GoAtlas.Selfjwt
