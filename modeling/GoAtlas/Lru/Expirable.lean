import GoAtlas.Lib.Lru
import GoAtlas.Lib.Machine

/-!
# The LRU cache whose entries expire

`ExpirableCache` keeps expired entries in a plain LRU cache until a write sweeps them, and skips the
sweep before `earliest`, a lower bound of the expiry instants. `Reference` is the cache it stands
for: an entry is gone from the instant it expires. Instants are integers, 0 being the zero
`time.Time`. An operation that reads the clock again after its first look gets the later reading,
and `All` one reading for each key.
-/

namespace GoAtlas.Lru

open Lib

variable {K V : Type} [DecidableEq K] {now t : Int}

/-- The zero `expiresAt` never expires. -/
structure Entry (V : Type) where
  value : V
  expiresAt : Int
  deriving DecidableEq

/-- A size that is not positive is no bound, and a `ttl` that is not positive no expiry. -/
structure Config where
  size : Int
  ttl : Int

structure ExpirableCache (K V : Type) where
  entries : List (K × Entry V)
  nextSweep : Int
  earliest : Int

inductive Op (K V : Type) where
  | get (key : K)
  | put (key : K) (value : V)
  | putIfAbsent (key : K) (value : V)
  | compareAndSwap (key : K) (old newValue : V)
  | remove (key : K)
  | has (key : K)
  | purge
  | all

structure Call (K V : Type) where
  op : Op K V
  now : Int
  later : Int
  reading : K → Int

inductive Reply (K V : Type) where
  | got (value : Option V)
  | evicted (yes : Bool)
  | actual (value : V) (loaded : Bool)
  | swapped (yes : Bool)
  | removed (yes : Bool)
  | present (yes : Bool)
  | purged
  | pairs (l : List (K × V))
  deriving DecidableEq

/-! ## The cache -/

def Entry.expired (e : Entry V) (now : Int) : Bool :=
  decide (e.expiresAt ≠ 0) && decide (e.expiresAt ≤ now)

namespace ExpirableCache

def new : ExpirableCache K V := ⟨[], 0, 0⟩

/-- Oldest first, as the library lists them. -/
def keys (c : ExpirableCache K V) : List K := (c.entries.map Prod.fst).reverse

def entry (c : ExpirableCache K V) (key : K) (now : Int) : Option V :=
  (c.entries.lookup key).bind fun e => if e.expired now then none else some e.value

def touch (c : ExpirableCache K V) (key : K) : ExpirableCache K V :=
  { c with entries := Lru.touch c.entries key }

def wouldEvict (cfg : Config) (c : ExpirableCache K V) (key : K) : Bool :=
  if cfg.size ≤ 0 ∨
    (c.entries.length : Int) < cfg.size then false else (c.entries.lookup key).isNone

/-- The bound with one more entry. -/
def lower (earliest expiresAt : Int) : Int :=
  if earliest = 0 ∨ expiresAt < earliest then expiresAt else earliest

def sweepKey (now : Int) (s : List (K × Entry V) × Int) (key : K) : List (K × Entry V) × Int :=
  (s.1.lookup key).elim s fun e =>
    if e.expiresAt ≤ now then (Assoc.remove s.1 key, s.2) else (s.1, lower s.2 e.expiresAt)

def sweep (c : ExpirableCache K V) (now : Int) : ExpirableCache K V :=
  let s := c.keys.foldl (sweepKey now) (c.entries, 0)
  { c with entries := s.1, earliest := s.2 }

/-- The library's `Add`. -/
def add (cfg : Config) (c : ExpirableCache K V) (key : K) (e : Entry V) :
    ExpirableCache K V × Bool :=
  ({ c with entries := Lru.add cfg.size c.entries key e }, Lru.evicts cfg.size c.entries key)

/-- The sweep of a write, if one is due. -/
def freed (cfg : Config) (c : ExpirableCache K V) (key : K) (now : Int) : ExpirableCache K V :=
  if c.earliest ≤ now ∧ (c.nextSweep ≤ now ∨ c.wouldEvict cfg key = true) then
    { c.sweep now with nextSweep := now + cfg.ttl }
  else c

def store (cfg : Config) (c : ExpirableCache K V) (key : K) (value : V) (now : Int) :
    ExpirableCache K V × Bool :=
  if 0 < cfg.ttl then
    add cfg { c.freed cfg key now with
      earliest := lower (c.freed cfg key now).earliest (now + cfg.ttl) } key
      ⟨value, now + cfg.ttl⟩
  else c.add cfg key ⟨value, 0⟩

/-- `equal` is the comparison of two values as interfaces. -/
def step (cfg : Config) (equal : V → V → Bool) (c : ExpirableCache K V) (call : Call K V) :
    ExpirableCache K V × Reply K V :=
  match call.op with
  | .get key =>
    (if (c.entry key call.now).isSome then c.touch key else c, .got (c.entry key call.now))
  | .put key value =>
    ((c.store cfg key value call.now).1, .evicted (c.store cfg key value call.now).2)
  | .putIfAbsent key value =>
    (c.entry key call.now).elim ((c.store cfg key value call.later).1, .actual value false) fun v =>
      (c.touch key, .actual v true)
  | .compareAndSwap key old newValue =>
    if (c.entry key call.now).any (equal · old) then ((c.store cfg key newValue call.later).1,
      .swapped true)
    else (c, .swapped false)
  | .remove key =>
    ({ c with entries := Assoc.remove c.entries key }, .removed (c.entries.lookup key).isSome)
  | .has key => (c, .present (c.entry key call.now).isSome)
  | .purge => ({ c with entries := [] }, .purged)
  | .all => (c, .pairs (c.keys.filterMap fun key => (c.entry key (call.reading key)).map (key, ·)))

end ExpirableCache

/-! ## The reference -/

/-- A value with the instant it expires, `none` if it never does. -/
abbrev Lasting (V : Type) : Type := V × Option Int

def alive (now : Int) (e : Lasting V) : Option (Lasting V) :=
  if e.2.any (decide <| · ≤ now) then none else some e

namespace Reference

abbrev Cache (K V : Type) : Type := List (K × Lasting V)

def drop (now : Int) (r : Cache K V) : Cache K V := Lru.select (alive now) r

def deadline (cfg : Config) (now : Int) : Option Int :=
  if 0 < cfg.ttl then some (now + cfg.ttl) else none

/-- Only a cache full of what has not expired evicts, and then the least recently used. -/
def store (cfg : Config) (r : Cache K V) (key : K) (value : V) (now : Int) : Cache K V × Bool :=
  (Lru.add cfg.size (drop now r) key (value, deadline cfg now), Lru.evicts cfg.size
    (drop now r) key)

def find (r : Cache K V) (key : K) (now : Int) : Option V := ((drop now r).lookup key).map Prod.fst

def step (cfg : Config) (equal : V → V → Bool) (r : Cache K V) (call : Call K V) :
    Cache K V × Reply K V :=
  match call.op with
  | .get key => (Lru.touch (drop call.now r) key, .got (find r key call.now))
  | .put key value =>
    ((store cfg r key value call.now).1, .evicted (store cfg r key value call.now).2)
  | .putIfAbsent key value =>
    (find r key call.now).elim ((store cfg r key value call.later).1, .actual value false) fun v =>
      (Lru.touch (drop call.now r) key, .actual v true)
  | .compareAndSwap key old newValue =>
    if (find r key call.now).any (equal · old) then ((store cfg r key newValue call.later).1,
      .swapped true)
    else (r, .swapped false)
  | .remove key => (Assoc.remove (drop call.now r) key, .removed (find r key call.now).isSome)
  | .has key => (r, .present (find r key call.now).isSome)
  | .purge => ([], .purged)
  | .all => (r, .pairs ((drop call.now r).reverse.filterMap fun p =>
      (alive (call.reading p.1) p.2).map fun e => (p.1, e.1)))

end Reference

/-! ## What is seen of the cache -/

def Entry.lasting (e : Entry V) : Lasting V :=
  (e.value, if e.expiresAt = 0 then none else some e.expiresAt)

def Entry.seen (now : Int) (e : Entry V) : Option (Lasting V) := alive now e.lasting

def ExpirableCache.live (c : ExpirableCache K V) (now : Int) : Reference.Cache K V :=
  Lru.select (Entry.seen now) c.entries

theorem Entry.seen_eq (e : Entry V) (now : Int) :
    e.seen now = if e.expired now then none else some e.lasting := by
  by_cases h0 : e.expiresAt = 0
  · simp [Entry.seen, alive, Entry.lasting, Entry.expired, h0]
  · by_cases hn : e.expiresAt ≤ now
    · simp [Entry.seen, alive, Entry.lasting, Entry.expired, h0, hn]
    · simp [Entry.seen, alive, Entry.lasting, Entry.expired, h0, hn]

theorem Entry.seen_isSome (e : Entry V) (now : Int) : (e.seen now).isSome = !e.expired now := by
  rw [Entry.seen_eq]
  cases e.expired now <;> rfl

omit [DecidableEq K] in
theorem alive_bind (h : now ≤ t) (e : Lasting V) :
    (alive now e).bind (alive t) = alive t e := by
  obtain ⟨v, d⟩ := e
  cases d with
  | none => simp [alive]
  | some d =>
    by_cases hd : d ≤ now
    · simp [alive, hd, show d ≤ t by omega]
    · simp [alive, hd]

omit [DecidableEq K] in
theorem Reference.drop_drop (h : now ≤ t) (r : Reference.Cache K V) :
    Reference.drop t (Reference.drop now r) = Reference.drop t r := by
  rw [Reference.drop, Reference.drop, Lru.select_select, Reference.drop]
  exact Lru.select_congr fun p _ => alive_bind h p.2

omit [DecidableEq K] in
theorem ExpirableCache.drop_live (h : now ≤ t) (c : ExpirableCache K V) :
    Reference.drop t (c.live now) = c.live t := by
  rw [Reference.drop, ExpirableCache.live, Lru.select_select, ExpirableCache.live]
  exact Lru.select_congr fun p _ => alive_bind h p.2.lasting

theorem ExpirableCache.wouldEvict_eq (cfg : Config) (c : ExpirableCache K V) (key : K) :
    c.wouldEvict cfg key = Lru.evicts cfg.size c.entries key := by
  rw [ExpirableCache.wouldEvict]
  split_ifs with h
  · rw [eq_comm, Bool.eq_false_iff, ne_eq, Lru.evicts_iff]
    omega
  · rw [Bool.eq_iff_iff, Lru.evicts_iff, Option.isNone_iff_eq_none]
    exact ⟨fun hnone => ⟨hnone, by omega, by omega⟩, fun hev => hev.1⟩

/-! ## The bound of the expiry instants -/

/-- A bound that is set and not above the instant. -/
def Bounds (earliest expiresAt : Int) : Prop := earliest ≠ 0 ∧ earliest ≤ expiresAt

theorem Bounds.lower {earliest x : Int} (h : Bounds earliest x) {e : Int} (he : e ≠ 0) :
    Bounds (ExpirableCache.lower earliest e) x := by
  obtain ⟨hne, hle⟩ := h
  rw [ExpirableCache.lower]
  split_ifs with hlow
  · exact ⟨he, by omega⟩
  · exact ⟨hne, hle⟩

theorem bounds_lower {e : Int} (earliest : Int) (he : e ≠ 0) :
    Bounds (ExpirableCache.lower earliest e) e := by
  rw [ExpirableCache.lower]
  split_ifs with hlow
  · exact ⟨he, Int.le_refl e⟩
  · exact ⟨by omega, by omega⟩

/-- One turn of the sweep: the entry of the key goes if it has expired, and is within the bound if
it has not. -/
theorem sweepKey_spec (now earliest : Int) {l : List (K × Entry V)} (k : K)
    (hnodup : (l.map Prod.fst).Nodup) (hset : ∀ p ∈ l, p.2.expiresAt ≠ 0) :
    (ExpirableCache.sweepKey now (l, earliest) k).1 =
    l.filter (fun p => p.1 ≠ k ∨ now < p.2.expiresAt) ∧
    (∀ x, Bounds earliest x → Bounds (ExpirableCache.sweepKey now (l, earliest) k).2 x) ∧
    ∀ p ∈ l, p.1 = k → now < p.2.expiresAt →
      Bounds (ExpirableCache.sweepKey now (l, earliest) k).2 p.2.expiresAt := by
  cases hl : l.lookup k with
  | none =>
    have hno : ∀ p ∈ l, p.1 ≠ k := fun p hp heq => by
      have := List.lookup_eq_none_iff.mp hl p hp
      simp [heq] at this
    rw [show ExpirableCache.sweepKey now (l, earliest) k =
      (l, earliest) by simp [ExpirableCache.sweepKey, hl]]
    refine ⟨(List.filter_eq_self.mpr fun p hp => ?_).symm, fun _ hx => hx,
      fun p hp hk => absurd hk (hno p hp)⟩
    simp [hno p hp]
  | some e =>
    have he : ∀ p ∈ l, p.1 = k → p.2 = e := fun p hp heq => by
      have := (Assoc.lookup_eq_some_iff_mem hnodup).mpr (show (k, p.2) ∈ l from heq ▸ hp)
      rw [hl] at this
      exact (Option.some.inj this).symm
    by_cases hexp : e.expiresAt ≤ now
    · rw [show ExpirableCache.sweepKey now (l, earliest) k = (Assoc.remove l k, earliest) by
        simp [ExpirableCache.sweepKey, hl, hexp]]
      refine ⟨List.filter_congr fun p hp => ?_, fun _ hx => hx, fun p hp hk hlive => ?_⟩
      · by_cases hk : p.1 = k
        · simp [hk, he p hp hk, hexp]
        · simp [hk]
      · rw [he p hp hk] at hlive
        omega
    · rw [show ExpirableCache.sweepKey now (l, earliest) k =
        (l, ExpirableCache.lower earliest e.expiresAt) by
        simp [ExpirableCache.sweepKey, hl, hexp]]
      have hne : e.expiresAt ≠ 0 := hset _ (Assoc.mem_of_lookup hl)
      refine ⟨(List.filter_eq_self.mpr fun p hp => ?_).symm, fun x hx => hx.lower hne,
        fun p hp hk _ => ?_⟩
      · by_cases hk : p.1 = k
        · simp [he p hp hk, show now < e.expiresAt by omega]
        · simp [hk]
      · rw [he p hp hk]
        exact bounds_lower earliest hne

theorem foldl_sweepKey (now : Int) (ks : List K) : ∀ (l : List (K × Entry V)) (earliest : Int),
    (l.map Prod.fst).Nodup → (∀ p ∈ l, p.2.expiresAt ≠ 0) →
    (ks.foldl (ExpirableCache.sweepKey now) (l, earliest)).1 =
      l.filter (fun p => p.1 ∉ ks ∨ now < p.2.expiresAt) ∧
    (∀ x, Bounds earliest x → Bounds (ks.foldl (ExpirableCache.sweepKey now) (l, earliest)).2 x) ∧
    ∀ p ∈ l, p.1 ∈ ks → now < p.2.expiresAt →
      Bounds (ks.foldl (ExpirableCache.sweepKey now) (l, earliest)).2 p.2.expiresAt := by
  induction ks with
  | nil =>
    intro l earliest _ _
    simp
  | cons k ks ih =>
    intro l earliest hnodup hset
    obtain ⟨hone, hkeep₁, hnew₁⟩ := sweepKey_spec now earliest k hnodup hset
    have hmem : ∀ p ∈ (ExpirableCache.sweepKey now (l, earliest) k).1, p ∈ l := fun p hp => by
      rw [hone] at hp
      exact (List.mem_filter.mp hp).1
    obtain ⟨hentries, hkeep, hnew⟩ := ih _ (ExpirableCache.sweepKey now (l, earliest) k).2
      (by rw [hone]; exact hnodup.sublist (List.filter_sublist.map _)) fun p hp =>
      hset p (hmem p hp)
    rw [List.foldl_cons]
    refine ⟨?_, fun x hx => hkeep x (hkeep₁ x hx), fun p hp hks hlive => ?_⟩
    · rw [hentries, hone, List.filter_filter]
      refine List.filter_congr fun p hp => ?_
      by_cases hlive : now < p.2.expiresAt
      · simp [hlive]
      · simp [hlive, Bool.and_comm]
    · by_cases hk : p.1 = k
      · exact hkeep _ (hnew₁ p hp hk hlive)
      · refine hnew p ?_ ((List.mem_cons.mp hks).resolve_left hk) hlive
        rw [hone]
        exact List.mem_filter.mpr ⟨hp, by simp [hk]⟩

/-! ## The invariant -/

structure ExpirableCache.Inv (cfg : Config) (c : ExpirableCache K V) : Prop where
  nodup : (c.entries.map Prod.fst).Nodup
  length : 0 < cfg.size → (c.entries.length : Int) ≤ cfg.size
  bound : 0 < cfg.ttl → ∀ p ∈ c.entries, p.2.expiresAt ≠ 0 ∧ Bounds c.earliest p.2.expiresAt
  forever : cfg.ttl ≤ 0 → ∀ p ∈ c.entries, p.2.expiresAt = 0

namespace ExpirableCache

variable {cfg : Config} {c : ExpirableCache K V} {key : K} {value : V} {now t : Int}

omit [DecidableEq K] in
theorem inv_new : (new : ExpirableCache K V).Inv cfg :=
  ⟨List.nodup_nil, fun h => Int.le_of_lt h, fun _ _ hp => absurd hp List.not_mem_nil,
    fun _ _ hp => absurd hp List.not_mem_nil⟩

variable (h : c.Inv cfg)
include h

omit [DecidableEq K] in
theorem Inv.of_subset {l : List (K × Entry V)} (hnodup : (l.map Prod.fst).Nodup)
    (hlen : l.length ≤ c.entries.length) (hsub : ∀ p ∈ l, p ∈ c.entries) :
    ({ c with entries := l } : _).Inv cfg :=
  ⟨hnodup, fun hs => Int.le_trans (Int.ofNat_le.mpr hlen) (h.length hs),
    fun ht p hp => h.bound ht p (hsub p hp), fun ht p hp => h.forever ht p (hsub p hp)⟩

theorem Inv.touch (key : K) : (c.touch key).Inv cfg :=
  h.of_subset (Lru.nodup_touch h.nodup key) (Nat.le_of_eq (Lru.length_touch h.nodup key)) fun _ =>
    Lru.mem_of_mem_touch

theorem Inv.remove (key : K) :
    ({ c with entries := Assoc.remove c.entries key } : _).Inv cfg :=
  h.of_subset (Assoc.nodup_remove h.nodup key) (List.length_filter_le _ _) fun _ hp =>
    (List.mem_filter.mp hp).1

theorem lookup_live (key : K) (now : Int) :
    (c.live now).lookup key = (c.entries.lookup key).bind (Entry.seen now) :=
  Lru.lookup_select h.nodup key

theorem entry_eq (key : K) (now : Int) :
    c.entry key now = ((c.live now).lookup key).map Prod.fst := by
  rw [lookup_live h, entry]
  cases c.entries.lookup key with
  | none => rfl
  | some e =>
    rw [Option.bind_some, Option.bind_some, Entry.seen_eq]
    cases e.expired now <;> rfl

/-- A sweep frees what has expired, and the bound is set anew. -/
theorem sweep_spec (ht : 0 < cfg.ttl) (now : Int) :
    (c.sweep now).entries = c.entries.filter (fun p => now < p.2.expiresAt) ∧
    ∀ p ∈ (c.sweep now).entries, Bounds (c.sweep now).earliest p.2.expiresAt := by
  obtain ⟨hentries, _, hnew⟩ := foldl_sweepKey now c.keys c.entries 0 h.nodup fun p hp =>
    (h.bound ht p hp).1
  have hkeys : ∀ p ∈ c.entries, p.1 ∈ c.keys := fun p hp =>
    List.mem_reverse.mpr (List.mem_map_of_mem hp)
  have heq : (c.sweep now).entries = c.entries.filter (fun p => now < p.2.expiresAt) :=
    hentries.trans (List.filter_congr fun p hp => by simp [hkeys p hp])
  refine ⟨heq, fun p hp => ?_⟩
  rw [heq, List.mem_filter, decide_eq_true_eq] at hp
  exact hnew p hp.1 (hkeys p hp.1) hp.2

/-- After the sweep of a write what is live is as before, and the write evicts only if all entries
are live. -/
theorem freed_spec (ht : 0 < cfg.ttl) (key : K) (now : Int) :
    (c.freed cfg key now).Inv cfg ∧ (c.freed cfg key now).live now = c.live now ∧
    ((∀ p ∈ (c.freed cfg key now).entries, (p.2.seen now).isSome = true) ∨
      Lru.evicts cfg.size (c.freed cfg key now).entries key = false) := by
  rw [freed]
  split_ifs with hdue
  · obtain ⟨hentries, hbounds⟩ := sweep_spec h ht now
    have hsub : ∀ p ∈ (c.sweep now).entries, p ∈ c.entries := fun p hp => by
      rw [hentries] at hp
      exact (List.mem_filter.mp hp).1
    have hall : ∀ p ∈ (c.sweep now).entries, (p.2.seen now).isSome = true := fun p hp => by
      rw [hentries, List.mem_filter, decide_eq_true_eq] at hp
      rw [Entry.seen_isSome, Entry.expired, decide_eq_false (show ¬ p.2.expiresAt ≤ now by omega)]
      simp
    refine ⟨⟨?_, fun hs => ?_, fun _ p hp => ⟨(h.bound ht p (hsub p hp)).1, hbounds p hp⟩,
      fun hle => ?_⟩, ?_, .inl hall⟩
    · exact hentries ▸ h.nodup.sublist (List.filter_sublist.map _)
    · have hlen : (c.sweep now).entries.length ≤ c.entries.length :=
        hentries ▸ List.length_filter_le _ _
      exact Int.le_trans (Int.ofNat_le.mpr hlen) (h.length hs)
    · omega
    · rw [live, live, hentries, Lru.select, Lru.select, List.filterMap_filter]
      refine List.filterMap_congr fun p hp => ?_
      have hset := (h.bound ht p hp).1
      rw [Entry.seen_eq, Entry.expired, decide_eq_true hset]
      by_cases hlive : now < p.2.expiresAt
      · simp [hlive]
      · simp [hlive, show p.2.expiresAt ≤ now by omega]
  · refine ⟨h, rfl, ?_⟩
    by_cases hearly : c.earliest ≤ now
    · rw [← wouldEvict_eq]
      exact .inr (by simpa using fun hev => hdue ⟨hearly, .inr hev⟩)
    · refine .inl fun p hp => ?_
      have := (h.bound ht p hp).2.2
      rw [Entry.seen_isSome, Entry.expired, decide_eq_false (show ¬ p.2.expiresAt ≤ now by omega)]
      simp

/-- A write is the write of the reference on what is live. -/
theorem store_spec (hzero : 0 < cfg.ttl → now + cfg.ttl ≠ 0) (key : K) (value : V) :
    (c.store cfg key value now).1.Inv cfg ∧
    (c.store cfg key value now).1.live now =
      Lru.add cfg.size (c.live now) key (value, Reference.deadline cfg now) ∧
    (c.store cfg key value now).2 = Lru.evicts cfg.size (c.live now) key := by
  rw [store]
  split_ifs with ht
  · obtain ⟨hi, hlive, hroom⟩ := freed_spec h ht key now
    have hnew : (⟨value, now + cfg.ttl⟩ : Entry V).seen now =
        some (value, Reference.deadline cfg now) := by
      have hpast : ¬ now + cfg.ttl ≤ now := by omega
      rw [Entry.seen_eq, Entry.expired, decide_eq_false hpast, Bool.and_false,
        if_neg Bool.false_ne_true, Entry.lasting, if_neg (hzero ht), Reference.deadline, if_pos ht]
    refine ⟨⟨Lru.nodup_add hi.nodup _ _ _,
      fun hs => Lru.length_add_le hi.nodup hs (hi.length hs) _ _, fun _ p hp =>
        ?_, fun hle => ?_⟩, ?_, ?_⟩
    · rcases Lru.mem_of_mem_add hp with rfl | hp
      · exact ⟨hzero ht, bounds_lower _ (hzero ht)⟩
      · exact ⟨(hi.bound ht p hp).1, (hi.bound ht p hp).2.lower (hzero ht)⟩
    · omega
    · rw [← hlive]
      exact Lru.select_add hi.nodup hnew hi.length hroom
    · rw [← hlive]
      exact (Lru.evicts_select hi.nodup hi.length hroom).symm
  · have hforever := h.forever (by omega)
    have hall : ∀ p ∈ c.entries, (p.2.seen now).isSome = true := fun p hp => by
      rw [Entry.seen_isSome, Entry.expired, hforever p hp]
      rfl
    have hnew : (⟨value, 0⟩ : Entry V).seen now = some (value, Reference.deadline cfg now) := by
      simp [Entry.seen_eq, Entry.expired, Entry.lasting, Reference.deadline, ht]
    refine ⟨⟨Lru.nodup_add h.nodup _ _ _, fun hs => Lru.length_add_le h.nodup hs (h.length hs) _ _,
      fun hpos => ?_, fun _ p hp => ?_⟩, ?_, ?_⟩
    · exact absurd hpos ht
    · rcases Lru.mem_of_mem_add hp with rfl | hp
      · rfl
      · exact hforever p hp
    · exact Lru.select_add h.nodup hnew h.length (.inl hall)
    · exact (Lru.evicts_select h.nodup h.length (.inl hall)).symm

end ExpirableCache

/-! ## The simulation -/

def Simulates (now : Int) (c : ExpirableCache K V) (r : Reference.Cache K V) : Prop :=
  Reference.drop now r = c.live now

/-- The call removes an entry that has expired and was not freed. -/
def Call.removesExpired (call : Call K V) (c : ExpirableCache K V) : Bool :=
  match call.op with
  | .remove key => (c.entries.lookup key).any (·.expired call.now)
  | _ => false

/-- The instant a call may store an entry at. -/
def Call.storesAt (call : Call K V) : Option Int :=
  match call.op with
  | .put _ _ => some call.now
  | .putIfAbsent _ _ => some call.later
  | .compareAndSwap _ _ _ => some call.later
  | _ => none

/-- No entry is stored whose expiry is the zero time. -/
def Call.Expires (cfg : Config) (call : Call K V) : Prop :=
  ∀ t, call.storesAt = some t → 0 < cfg.ttl → t + cfg.ttl ≠ 0

/-- The readings of the clock do not decrease. -/
structure Call.Clocked (call : Call K V) (t : Int) : Prop where
  now : t ≤ call.now
  later : call.now ≤ call.later
  reading : ∀ key, call.now ≤ call.reading key ∧ call.reading key ≤ call.later

/-- The readings do not decrease from call to call. -/
def Clocked : Int → List (Call K V) → Prop
  | _, [] => True
  | t, call :: calls => call.Clocked t ∧ Clocked call.later calls

section Simulation

variable {cfg : Config} {c : ExpirableCache K V} {r : Reference.Cache K V} {call : Call K V}
  {now t : Int} {key : K}

omit [DecidableEq K] in
theorem Simulates.mono (h : now ≤ t) (hs : Simulates now c r) : Simulates t c r := by
  rw [Simulates, ← Reference.drop_drop h, hs, ExpirableCache.drop_live h]

omit [DecidableEq K] in
theorem simulates_of_live (h : r = c.live now) : Simulates now c r := by
  rw [Simulates, h, ExpirableCache.drop_live (Int.le_refl now)]

theorem Simulates.find_eq (hi : c.Inv cfg) (hs : Simulates now c r) (key : K) :
    Reference.find r key now = c.entry key now := by
  rw [Reference.find, hs, ExpirableCache.entry_eq hi]

theorem Simulates.touch (hi : c.Inv cfg) (hs : Simulates now c r) {v : V}
    (hv : c.entry key now = some v) :
    Simulates now (c.touch key) (Lru.touch (Reference.drop now r) key) := by
  rw [ExpirableCache.entry_eq hi, Option.map_eq_some_iff] at hv
  obtain ⟨b, hb, _⟩ := hv
  rw [ExpirableCache.lookup_live hi] at hb
  exact simulates_of_live (by rw [hs]; exact (Lru.select_touch hi.nodup hb).symm)

theorem Simulates.touch_none (hi : c.Inv cfg) (hs : Simulates now c r)
    (hv : c.entry key now = none) :
    Simulates now c (Lru.touch (Reference.drop now r) key) := by
  rw [ExpirableCache.entry_eq hi, Option.map_eq_none_iff] at hv
  exact simulates_of_live (by rw [hs, Lru.touch, hv]; rfl)

theorem Simulates.store (hi : c.Inv cfg) (hs : Simulates now c r)
    (hzero : 0 < cfg.ttl → now + cfg.ttl ≠ 0) (key : K) (value : V) :
    Simulates now (c.store cfg key value now).1 (Reference.store cfg r key value now).1 ∧
    (c.store cfg key value now).2 = (Reference.store cfg r key value now).2 := by
  obtain ⟨_, hlive, hevicted⟩ := ExpirableCache.store_spec hi hzero key value
  refine ⟨simulates_of_live ?_, ?_⟩
  · rw [hlive, Reference.store, hs]
  · rw [hevicted, Reference.store, hs]

theorem Simulates.remove (hs : Simulates now c r) (key : K) :
    Simulates now { c with entries := Assoc.remove c.entries key }
      (Assoc.remove (Reference.drop now r) key) :=
  simulates_of_live (by rw [hs]; exact (Lru.select_remove key).symm)

theorem pairs_eq (hi : c.Inv cfg) (hs : Simulates now c r) {reading : K → Int}
    (hr : ∀ key, now ≤ reading key) :
    (c.keys.filterMap fun key => (c.entry key (reading key)).map (key, ·)) =
      (Reference.drop now r).reverse.filterMap fun p => (alive (reading p.1) p.2).map fun e =>
      (p.1, e.1) := by
  rw [hs, ExpirableCache.live, Lru.select, ← List.filterMap_reverse, List.filterMap_filterMap,
    ExpirableCache.keys, ← List.map_reverse, List.filterMap_map]
  refine List.filterMap_congr fun p hp => ?_
  have hmem : c.entries.lookup p.1 = some p.2 :=
    (Assoc.lookup_eq_some_iff_mem hi.nodup).mpr (List.mem_reverse.mp hp)
  have hseen : (p.2.seen now).bind (alive (reading p.1)) = p.2.seen (reading p.1) :=
    alive_bind (hr p.1) p.2.lasting
  rw [Function.comp, ExpirableCache.entry_eq hi, ExpirableCache.lookup_live hi, hmem,
    Option.bind_some, ← hseen]
  cases p.2.seen now with
  | none => rfl
  | some e => cases halive : alive (reading p.1) e <;> simp [halive]

theorem removed_iff (hi : c.Inv cfg) (key : K) (now : Int) :
    (c.entries.lookup key).isSome = (c.entry key now).isSome ↔
    (c.entries.lookup key).any (·.expired now) = false := by
  rw [ExpirableCache.entry_eq hi, ExpirableCache.lookup_live hi]
  cases c.entries.lookup key with
  | none => simp
  | some e =>
    rw [Option.bind_some, Entry.seen_eq]
    cases he : e.expired now <;> simp [he]

/-- One call: the states go on to agree, and the replies differ only for the removal of an expired
entry. -/
theorem step_simulates (equal : V → V → Bool) (hi : c.Inv cfg) (hs : Simulates t c r)
    (hc : call.Clocked t) (he : call.Expires cfg) :
    (c.step cfg equal call).1.Inv cfg ∧
    Simulates call.later (c.step cfg equal call).1 (Reference.step cfg equal r call).1 ∧
    ((c.step cfg equal call).2 = (Reference.step cfg equal r call).2 ↔
    call.removesExpired c = false) := by
  obtain ⟨op, now, later, reading⟩ := call
  obtain ⟨hnow, hlater, hreading⟩ := hc
  have hs := hs.mono hnow
  have hfind := hs.find_eq hi
  cases op with
  | get key =>
    cases hv : c.entry key now with
    | none =>
      simp only [ExpirableCache.step, Reference.step, Call.removesExpired, hfind, hv,
        Option.isSome_none, Bool.false_eq_true, if_false]
      exact ⟨hi, (hs.touch_none hi hv).mono hlater, trivial⟩
    | some v =>
      simp only [ExpirableCache.step, Reference.step, Call.removesExpired, hfind, hv,
        Option.isSome_some, if_true]
      exact ⟨hi.touch key, (hs.touch hi hv).mono hlater, trivial⟩
  | put key value =>
    obtain ⟨hsim, hevicted⟩ := hs.store hi (he now rfl) key value
    simp only [ExpirableCache.step, Reference.step, Call.removesExpired, hevicted]
    exact ⟨(ExpirableCache.store_spec hi (he now rfl) key value).1, hsim.mono hlater, trivial⟩
  | putIfAbsent key value =>
    cases hv : c.entry key now with
    | none =>
      simp only [ExpirableCache.step, Reference.step, Call.removesExpired, hfind, hv,
        Option.elim_none]
      exact ⟨(ExpirableCache.store_spec hi (he later rfl) key value).1,
        ((hs.mono hlater).store hi (he later rfl) key value).1, trivial⟩
    | some v =>
      simp only [ExpirableCache.step, Reference.step, Call.removesExpired, hfind, hv,
        Option.elim_some]
      exact ⟨hi.touch key, (hs.touch hi hv).mono hlater, trivial⟩
  | compareAndSwap key old newValue =>
    simp only [ExpirableCache.step, Reference.step, Call.removesExpired, hfind]
    split_ifs
    · exact ⟨(ExpirableCache.store_spec hi (he later rfl) key newValue).1,
        ((hs.mono hlater).store hi (he later rfl) key newValue).1, by simp⟩
    · exact ⟨hi, hs.mono hlater, by simp⟩
  | remove key =>
    simp only [ExpirableCache.step, Reference.step, Call.removesExpired, hfind, Reply.removed.injEq]
    exact ⟨hi.remove key, (hs.remove key).mono hlater, removed_iff hi key now⟩
  | has key =>
    simp only [ExpirableCache.step, Reference.step, Call.removesExpired, hfind]
    exact ⟨hi, hs.mono hlater, trivial⟩
  | purge =>
    simp only [ExpirableCache.step, Reference.step, Call.removesExpired]
    exact ⟨hi.of_subset List.nodup_nil (Nat.zero_le _) (by simp), rfl, trivial⟩
  | all =>
    simp only [ExpirableCache.step, Reference.step, Call.removesExpired]
    exact ⟨hi, hs.mono hlater,
      iff_of_true (congrArg Reply.pairs (pairs_eq hi hs fun key => (hreading key).1)) trivial⟩

end Simulation

/-! ## Whole runs -/

def ExpirableCache.after (cfg : Config) (equal : V → V → Bool) (c : ExpirableCache K V)
    (calls : List (Call K V)) : ExpirableCache K V :=
  calls.foldl (fun c call => (c.step cfg equal call).1) c

/-- No call removes an expired entry that was not freed. -/
def NoneRemovedExpired (cfg : Config) (equal : V → V → Bool) :
    ExpirableCache K V → List (Call K V) → Prop
  | _, [] => True
  | c, call :: calls =>
    call.removesExpired c = false ∧ NoneRemovedExpired cfg equal (c.step cfg equal call).1 calls

theorem run_simulates {cfg : Config} (equal : V → V → Bool) {calls : List (Call K V)} :
    ∀ {t : Int} {c : ExpirableCache K V} {r : Reference.Cache K V}, c.Inv cfg → Simulates t c r →
      Clocked t calls →
      (∀ call ∈ calls, call.Expires cfg) →
      (c.after cfg equal calls).Inv cfg ∧
      (replies (ExpirableCache.step cfg equal) c calls =
      replies (Reference.step cfg equal) r calls ↔
        NoneRemovedExpired cfg equal c calls) := by
  induction calls with
  | nil =>
    intro t c r hi _ _ _
    exact ⟨hi, iff_of_true rfl trivial⟩
  | cons call calls ih =>
    intro t c r hi hs hc he
    obtain ⟨hi', hs', hreply⟩ := step_simulates equal hi hs hc.1 (he call List.mem_cons_self)
    obtain ⟨hinv, hrest⟩ := ih hi' hs' hc.2 fun d hd => he d (List.mem_cons_of_mem _ hd)
    refine ⟨hinv, ?_⟩
    rw [replies, replies, List.cons.injEq, hreply, hrest, NoneRemovedExpired]

/-- For any calls with a clock that does not decrease, any size and any `ttl`, none of whose entries
gets the zero time for its expiry: the replies are those of the reference exactly if no expired
entry is removed before it was freed. And a live entry leaves with a write of another key only if as
many live entries exist as the size says, and then it is the least recently used of them. -/
theorem replies_agree_iff (cfg : Config) (equal : V → V → Bool) (start : Int)
    (calls : List (Call K V)) (hclock : Clocked start calls)
    (hexpires : ∀ call ∈ calls, call.Expires cfg) :
    (replies (ExpirableCache.step cfg equal) ExpirableCache.new calls =
    replies (Reference.step cfg equal) [] calls ↔
      NoneRemovedExpired cfg equal ExpirableCache.new calls) ∧
    ∀ (key : K) (value : V) (now : Int), (0 < cfg.ttl → now + cfg.ttl ≠ 0) →
      let c := ExpirableCache.new.after cfg equal calls
      ∀ p ∈ c.live now, p.1 ≠ key → p ∉ (c.store cfg key value now).1.live now →
        ((c.live now).length : Int) = cfg.size ∧ (c.live now).lookup key = none ∧
          (c.live now).getLast? = some p := by
  obtain ⟨hinv, hreplies⟩ :=
    run_simulates equal (c := ExpirableCache.new) (r := []) ExpirableCache.inv_new
    (show Simulates start _ _ from rfl) hclock hexpires
  refine ⟨hreplies, fun key value now hzero => ?_⟩
  intro c p hp hne hgone
  rw [(ExpirableCache.store_spec hinv hzero key value).2.1, Lru.add, List.mem_cons, not_or] at hgone
  have hlen : (c.live now).length ≤ c.entries.length := Lru.length_select_le
  by_cases hev : Lru.evicts cfg.size (c.live now) key = true
  · rw [if_pos hev] at hgone
    obtain ⟨hnone, hpos, hfull⟩ := Lru.evicts_iff.mp hev
    have hbound : (c.entries.length : Int) ≤ cfg.size := hinv.length hpos
    refine ⟨by omega, hnone, ?_⟩
    have hlast : (c.live now) ≠ [] := List.ne_nil_of_mem hp
    rw [← List.dropLast_append_getLast hlast, List.mem_append, List.mem_singleton] at hp
    rw [List.getLast?_eq_some_getLast hlast, ← hp.resolve_left hgone.2]
  · rw [if_neg hev] at hgone
    exact absurd (List.mem_filter.mpr ⟨hp, by simpa using hne⟩) hgone.2

def Call.atOnce (op : Op K V) (now : Int) : Call K V := ⟨op, now, now, fun _ => now⟩

omit [DecidableEq K] in
theorem Call.clocked_atOnce {op : Op K V} (h : t ≤ now) :
    (Call.atOnce op now).Clocked t :=
  ⟨h, Int.le_refl now, fun _ => ⟨Int.le_refl now, Int.le_refl now⟩⟩

/-- Two entries in a cache of two; the third evicts the one that was not read. -/
def evicting : List (Call Nat Nat) :=
  [.atOnce (.put 1 10) 1, .atOnce (.put 2 20) 2, .atOnce (.get 1) 3, .atOnce (.put 3 30) 4,
    .atOnce (.remove 2) 5, .atOnce .all 6]

theorem replies_agree_iff_evicting :
    replies (ExpirableCache.step ⟨2, 10⟩ (· == ·)) ExpirableCache.new evicting =
      replies (Reference.step ⟨2, 10⟩ (· == ·)) [] evicting := by
  have hclock : Clocked 0 evicting :=
    ⟨Call.clocked_atOnce (by decide), Call.clocked_atOnce (by decide),
      Call.clocked_atOnce (by decide), Call.clocked_atOnce (by decide), Call.clocked_atOnce
      (by decide), Call.clocked_atOnce (by decide), trivial⟩
  have hexpires : ∀ call ∈ evicting, call.Expires ⟨2, 10⟩ := by
    simp [evicting, Call.atOnce, Call.Expires, Call.storesAt]
  exact ((replies_agree_iff ⟨2, 10⟩ (· == ·) 0 evicting hclock hexpires).1).mpr
    ⟨rfl, rfl, rfl, rfl, rfl, rfl, trivial⟩

/-- An entry that expired at 2 is still removed at 2, and one whose expiry is the zero time is still
read. -/
theorem removed_after_expiry :
    replies (ExpirableCache.step ⟨1, 1⟩ (· == ·)) ExpirableCache.new
        [.atOnce (.put 1 10) 1, .atOnce (.has 1) 2, .atOnce (.remove 1) 2] =
      [Reply.evicted false, .present false, .removed true] ∧
    replies (Reference.step ⟨1, 1⟩ (· == ·)) []
      [.atOnce (.put 1 10) 1, .atOnce (.has 1) 2, .atOnce (.remove 1) 2] =
      [Reply.evicted false, .present false, .removed false] ∧
    replies (ExpirableCache.step ⟨1, 1⟩ (· == ·)) ExpirableCache.new
      [.atOnce (.put 1 10) (-1), .atOnce (.get 1) 0] =
      [Reply.evicted false, .got (some 10)] ∧
    replies (Reference.step ⟨1, 1⟩ (· == ·)) [] [.atOnce (.put 1 10) (-1), .atOnce (.get 1) 0] =
      [Reply.evicted false, .got none] := by
  decide

end GoAtlas.Lru
