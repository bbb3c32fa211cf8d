import GoAtlas.Keyset.Codec
import GoAtlas.Lib.KeysetWalk

/-!
# Paging a slice by key

`data/keyset`: `Typed` carries a cursor in a token, and the pager of `NewSlicePager` continues after
the key of the last item of the page before. Its pages are those of the library's walks: over
snapshots that change between the pages it returns its items in strict order and misses none that
stays. Each call has a snapshot of its own, and reads the clock for the token it is given and for
the one it hands out.
-/

namespace GoAtlas.Keyset

open Lib Lib.Keyset Std

/-! ## Typed tokens -/

structure TokenCodec where
  issue : Instant → Bytes → Bindings → Except Error Bytes
  resolve : Instant → Bytes → Bindings → Except Error Bytes

/-- Tokens that carry a cursor, encoded by `json.Marshal` and read by `json.Unmarshal`. -/
structure Typed (C : Type) where
  codec : Option TokenCodec
  marshal : C → Option Bytes
  unmarshal : Bytes → Option C

namespace Typed

variable {C : Type} (tokens : Typed C)

/-- Without a codec the token is empty. -/
def issue (now : Instant) (cursor : C) (b : Bindings) : Except Error Bytes :=
  match tokens.codec with
  | none => .ok []
  | some codec =>
    match tokens.marshal cursor with
    | none => .error .marshalCursor
    | some payload => codec.issue now payload b

/-- The cursor of a token; none for the empty token, which is the first page. -/
def resolve (now : Instant) (token : Bytes) (b : Bindings) : Except Error (Option C) :=
  if token = [] then .ok none
  else
    match tokens.codec with
    | none => .error .codecRequired
    | some codec => do
      let payload ← codec.resolve now token b
      match tokens.unmarshal payload with
      | none => .error .invalidToken
      | some cursor => return some cursor

/-- The token of the cursor is issued at `now`, is not empty, and resolves to it at `later`. -/
def Carries (b : Bindings) (now : Instant) (later : Option Instant) (cursor : C) : Prop :=
  ∃ token, tokens.issue now cursor b = .ok token ∧ token ≠ [] ∧
    ∀ t ∈ later, tokens.resolve t token b = .ok (some cursor)

theorem resolve_nil (now : Instant) (b : Bindings) : tokens.resolve now [] b = .ok none := rfl

end Typed

def Codec.typed {C : Type} (c : Codec) (hmac : Bytes → Bytes → Sum) (sha256 : Bytes → Sum)
    (marshal : C → Option Bytes) (unmarshal : Bytes → Option C) : Typed C where
  codec := some ⟨c.issue hmac sha256, c.resolve hmac sha256⟩
  marshal := marshal
  unmarshal := unmarshal

/-- A cursor of at most `maxPayloadLength` bytes that unmarshals to what was marshalled is carried
as long as the token lasts. -/
theorem Codec.typed_carries {C : Type} (c : Codec) (hmac : Bytes → Bytes → Sum)
    (sha256 : Bytes → Sum) {now : Instant} {later : Option Instant} {marshal : C → Option Bytes}
    {unmarshal : Bytes → Option C} {cursor : C} {payload : Bytes} (b : Bindings)
    (hmarshal : marshal cursor = some payload) (hlen : payload.length ≤ maxPayloadLength)
    (hunmarshal : unmarshal payload = some cursor)
    (htime : ∀ t ∈ later, c.InTime (now.unixMilli * 1000000) t) :
    (c.typed hmac sha256 marshal unmarshal).Carries b now later cursor := by
  obtain ⟨token, hissue, hne⟩ : ∃ token, c.issue hmac sha256 now payload b = .ok token ∧
    token ≠ [] :=
    exists_issue hlen
  refine ⟨token, ?_, hne, fun t ht => ?_⟩
  · simp only [Typed.issue, typed, hmarshal]
    exact hissue
  · obtain ⟨token', hissue', -, hresolve⟩ : ∃ token, c.issue hmac sha256 now payload b = .ok token ∧
        token ≠ [] ∧ c.resolve hmac sha256 t token b = .ok payload :=
      resolve_issue List.mem_cons_self hlen (htime t ht)
    cases hissue.symm.trans hissue'
    simp only [Typed.resolve, typed, if_neg hne, hresolve, bind, Except.bind, hunmarshal]
    rfl

/-! ## The pager -/

structure SlicePage (T : Type) where
  items : List T
  next : Bytes

/-- How a pager finds the first item of a page, and the token of the page that follows. -/
structure SlicePager (T : Type) where
  start : Instant → List T → Bytes → Bindings → Except Error Nat
  next : Instant → List T → Nat → Bindings → Except Error Bytes

def newSlicePager {T C : Type} (tokens : Typed C) (key : T → C) (compare : C → C → Ordering) :
    SlicePager T where
  start now items token b := do
    match ← tokens.resolve now token b with
    | none => return 0
    | some after =>
      return (items.findIdx? fun it => decide (compare (key it) after = .gt)).getD items.length
  next now items stop b :=
    match items[stop - 1]? with
    | some it => tokens.issue now (key it) b
    | none => .error .outOfRange

/-- The snapshot and the size of a call, and when it resolves its token and issues the next one. -/
structure Call (T : Type) where
  items : List T
  size : Int
  resolvedAt : Instant
  issuedAt : Instant

def SlicePager.page {T : Type} (p : SlicePager T) (r : Call T) (token : Bytes) (b : Bindings) :
    Except Error (SlicePage T) := do
  let start ← p.start r.resolvedAt r.items token b
  let stop := start + min (max r.size 1).toNat (r.items.length - start)
  let here := (r.items.take stop).drop start
  if stop < r.items.length then
    let next ← p.next r.issuedAt r.items stop b
    return ⟨here, next⟩
  else return ⟨here, []⟩

/-- The items of the pages from a token on: each page is read by a call of its own, with the token
the page before handed out, up to the page that hands out none. -/
inductive Traversal {T : Type} (p : SlicePager T) (b : Bindings) :
    Bytes → List (Call T) → List T → Prop where
  | last {token : Bytes} {r : Call T} {items : List T} (hpage : p.page r token b =
    .ok ⟨items, []⟩) :
      Traversal p b token [r] items
  | more {token : Bytes} {r : Call T} {items : List T} {next : Bytes} {calls : List (Call T)}
      {later : List T} (hpage : p.page r token b = .ok ⟨items, next⟩) (hnext : next ≠ [])
      (hrest : Traversal p b next calls later) : Traversal p b token (r :: calls) (items ++ later)

/-- The key of every item of a snapshot is carried to the next call. -/
def Typed.Works {T C : Type} (tokens : Typed C) (key : T → C) (b : Bindings) :
    List (Call T) → Prop
  | [] => True
  | r :: calls =>
    (∀ it ∈ r.items, tokens.Carries b r.issuedAt (calls.head?.map Call.resolvedAt) (key it)) ∧
      tokens.Works key b calls

/-! ## Pages of the pager are pages of a walk -/

section Pages

variable {T C : Type} {tokens : Typed C} {key : T → C} {compare : C → C → Ordering}
    [TransCmp compare]
variable {items : List T} {r : Call T} {now : Instant} {later : Option Instant} {token : Bytes}
  {b : Bindings} {after : Option C}

omit [TransCmp compare] in
theorem drop_findIdx_eq_filter {q : T → Bool}
    (h : items.Pairwise fun a b => q a = true → q b = true) :
    items.drop ((items.findIdx? q).getD items.length) = items.filter q := by
  induction items with
  | nil => rfl
  | cons a items ih =>
    rw [List.pairwise_cons] at h
    rw [List.findIdx?_cons, List.filter_cons]
    cases hq : q a with
    | true =>
      rw [if_pos rfl, if_pos rfl, Option.getD_some, List.drop_zero,
        List.filter_eq_self.mpr fun x hx => h.1 x hx hq]
    | false =>
      rw [if_neg (by decide), if_neg (by decide), ← ih h.2, List.length_cons]
      cases items.findIdx? q <;> rfl

theorem drop_start (hasc : Ascending key compare items) (after : C) :
    items.drop ((items.findIdx? fun it => decide (compare (key it) after = .gt)).getD
      items.length) =
      items.filter (isAfter key compare (some after)) := by
  refine drop_findIdx_eq_filter (hasc.imp fun {x y} hlt hx => ?_)
  rw [decide_eq_true_eq] at hx ⊢
  exact TransCmp.gt_trans (OrientedCmp.gt_iff_lt.mpr hlt) hx

theorem start_spec (hasc : Ascending key compare items)
    (htoken : tokens.resolve now token b = .ok after) :
    ∃ start, (newSlicePager tokens key compare).start now items token b = .ok start ∧
      items.drop start = items.filter (isAfter key compare after) := by
  cases after with
  | none =>
    refine ⟨0, by simp [newSlicePager, htoken, bind, Except.bind, pure, Except.pure], ?_⟩
    rw [filter_isAfter_none, List.drop_zero]
  | some c =>
    refine ⟨_, ?_, drop_start hasc c⟩
    simp [newSlicePager, htoken, bind, Except.bind, pure, Except.pure]

omit [TransCmp compare] in
theorem SlicePager.page_eq {p : SlicePager T} {start n : Nat} {rest : List T}
    (hstart : p.start r.resolvedAt r.items token b = .ok start) (hdrop : r.items.drop start = rest)
    (hsize : (max r.size 1).toNat = n) :
    p.page r token b =
      if n < rest.length then
        (p.next r.issuedAt r.items (start + n) b).map fun next => ⟨rest.take n, next⟩
      else .ok ⟨rest.take n, []⟩ := by
  have hlen : r.items.length - start = rest.length := by rw [← hdrop, List.length_drop]
  have hhere (k : Nat) : (r.items.take (start + k)).drop start = rest.take k := by
    rw [List.drop_take, hdrop, Nat.add_sub_cancel_left]
  rw [SlicePager.page, hstart, hsize]
  simp only [bind, Except.bind, hlen, hhere]
  by_cases hmore : n < rest.length
  · rw [if_pos (by omega), if_pos hmore, Nat.min_eq_left hmore.le]
    cases p.next r.issuedAt r.items (start + n) b <;> rfl
  · rw [if_neg (by omega), if_neg hmore, Nat.min_eq_right (by omega), List.take_length,
      List.take_of_length_le (by omega)]
    rfl

/-- A page of the pager is the page of a walk, and its token carries the next position. -/
theorem page_spec (hworks : ∀ it ∈ r.items, tokens.Carries b r.issuedAt later (key it))
    (hasc : Ascending key compare r.items)
    (htoken : tokens.resolve r.resolvedAt token b = .ok after) :
    ∃ next, (newSlicePager tokens key compare).page r token b =
        .ok ⟨(Keyset.page key compare after (max r.size 1).toNat r.items).1, next⟩ ∧
      (∀ t ∈ later, tokens.resolve t next b =
        .ok (Keyset.page key compare after (max r.size 1).toNat r.items).2) ∧
      (next = [] ↔ (Keyset.page key compare after (max r.size 1).toNat r.items).2 = none) := by
  obtain ⟨start, hstart, hdrop⟩ := start_spec hasc htoken
  obtain ⟨n, hn⟩ : ∃ n, (max r.size 1).toNat = n := ⟨_, rfl⟩
  have hpos : 0 < n := by omega
  rw [SlicePager.page_eq hstart hdrop hn, hn]
  simp only [Keyset.page]
  generalize r.items.filter (isAfter key compare after) = rest at hdrop
  by_cases hmore : n < rest.length
  · obtain ⟨it, hit⟩ : ∃ it, rest[n - 1]? = some it := ⟨rest[n - 1], List.getElem?_eq_getElem _⟩
    have hlast : (rest.take n).getLast? = some it := by
      rw [List.getLast?_take, if_neg (by omega), hit, Option.some_or]
    have hindex : r.items[start + n - 1]? = some it := by
      rw [← hit, ← hdrop, List.getElem?_drop, Nat.add_sub_assoc hpos]
    obtain ⟨next, hissue, hne, hresolve⟩ := hworks it (List.mem_of_getElem? hindex)
    refine ⟨next, ?_, fun t ht => ?_, ?_⟩
    · simp only [if_pos hmore, newSlicePager, hindex, hissue]
      rfl
    · rw [if_pos hmore, hlast, hresolve t ht, Option.map_some]
    · rw [if_pos hmore, hlast]
      simp [hne]
  · refine ⟨[], ?_, fun t _ => ?_, ?_⟩
    · rw [if_neg hmore]
    · rw [if_neg hmore, Typed.resolve_nil]
    · rw [if_neg hmore]
      simp

end Pages

/-! ## Traversals are walks -/

section Traversals

variable {T C : Type} {tokens : Typed C} {key : T → C} {compare : C → C → Ordering}
    [TransCmp compare]
variable {token : Bytes} {b : Bindings} {after : Option C} {calls : List (Call T)} {items : List T}

/-- The snapshots and the sizes of the pages as the pager reads them. -/
def pageReads (calls : List (Call T)) : List (List T × Nat) :=
  calls.map fun r => (r.items, (max r.size 1).toNat)

theorem Traversal.walk (h : Traversal (newSlicePager tokens key compare) b token calls items)
    (hworks : tokens.Works key b calls) (hasc : ∀ r ∈ calls, Ascending key compare r.items)
    (htoken : ∀ r ∈ calls.head?, tokens.resolve r.resolvedAt token b = .ok after) :
    Walk key compare after (pageReads calls) items := by
  induction h generalizing after with
  | @last token r items hpage =>
    obtain ⟨next, heq, -, hnil⟩ := page_spec hworks.1 (hasc _ List.mem_cons_self) (htoken r rfl)
    rw [hpage] at heq
    cases heq
    exact .last (hnil.mp rfl)
  | @more token r items next calls later hpage hnext hrest ih =>
    rw [List.forall_mem_cons] at hasc
    obtain ⟨next', heq, hresolve, hnil⟩ := page_spec hworks.1 hasc.1 (htoken r rfl)
    rw [hpage] at heq
    cases heq
    cases hpos : (Keyset.page key compare after (max r.size 1).toNat r.items).2 with
    | none => exact absurd (hnil.mpr hpos) hnext
    | some c =>
      rw [hpos] at hresolve
      exact .more hpos (ih hworks.2 hasc.2 fun r' hr' => hresolve _ (Option.mem_map_of_mem _ hr'))

theorem traversal_of_walk {pages : List (List T × Nat)} (hworks : tokens.Works key b calls)
    (hasc : ∀ r ∈ calls, Ascending key compare r.items)
    (htoken : ∀ r ∈ calls.head?, tokens.resolve r.resolvedAt token b = .ok after)
    (hpages : pages = pageReads calls) (h : Walk key compare after pages items) :
    Traversal (newSlicePager tokens key compare) b token calls items := by
  induction h generalizing token calls with
  | @last after s n hnext =>
    obtain ⟨r, rest, rfl⟩ : ∃ r rest, calls = r :: rest :=
      List.exists_cons_of_ne_nil (by rintro rfl; cases hpages)
    cases rest with
    | nil =>
      cases hpages
      obtain ⟨next, heq, -, hnil⟩ := page_spec hworks.1 (hasc _ List.mem_cons_self) (htoken r rfl)
      rw [hnil.mpr hnext] at heq
      exact .last heq
    | cons r rest => cases hpages
  | @more after s n next pages items hnext hrest ih =>
    obtain ⟨r, rest, rfl⟩ : ∃ r rest, calls = r :: rest :=
      List.exists_cons_of_ne_nil (by rintro rfl; cases hpages)
    cases hpages
    rw [List.forall_mem_cons] at hasc
    obtain ⟨token', heq, hresolve, hnil⟩ := page_spec hworks.1 hasc.1 (htoken r rfl)
    rw [hnext] at hresolve
    refine .more heq (fun hempty => ?_)
      (ih hworks.2 hasc.2 (fun r' hr' => hresolve _ (Option.mem_map_of_mem _ hr')) rfl)
    rw [hnil.mp hempty] at hnext
    cases hnext

omit [TransCmp compare] in
theorem works_of_calls {call : Nat → Call T} (h : ∀ i, ∀ it ∈ (call i).items, tokens.Carries b
    (call i).issuedAt (some (call (i + 1)).resolvedAt) (key it)) (i n : Nat) :
    tokens.Works key b ((List.range' i n).map call) := by
  induction n generalizing i with
  | zero => trivial
  | succ n ih =>
    refine ⟨fun it hit => ?_, ih (i + 1)⟩
    obtain ⟨token, hissue, hne, hresolve⟩ := h i it hit
    refine ⟨token, hissue, hne, fun t ht => ?_⟩
    cases n with
    | zero => cases ht
    | succ n => exact hresolve t ht

end Traversals

/-- A traversal of the pager returns its items in strictly ascending order of their keys, and each
item that all the snapshots have exactly once; on one snapshot it ends, whatever the sizes, and
returns the snapshot. The tokens have to carry the keys of the snapshots from call to call. -/
theorem slice_traversal {T C : Type} {tokens : Typed C} {key : T → C} {compare : C → C → Ordering}
    [TransCmp compare] {b : Bindings} :
    (∀ calls items, tokens.Works key b calls → (∀ r ∈ calls, Ascending key compare r.items) →
      Traversal (newSlicePager tokens key compare) b [] calls items →
      Ascending key compare items ∧
        ∀ t, (∀ r ∈ calls, t ∈ r.items) → ∃! i : Nat, items[i]? = some t) ∧
    ∀ (s : List T) (call : Nat → Call T), Ascending key compare s → (∀ i, (call i).items = s) →
      (∀ i, ∀ it ∈ s, tokens.Carries b (call i).issuedAt (some (call (i + 1)).resolvedAt)
      (key it)) →
      ∃ m, Traversal (newSlicePager tokens key compare) b [] ((List.range (m + 1)).map call) s := by
  constructor
  · intro calls items hworks hasc htraversal
    have hwalk := htraversal.walk hworks hasc fun r _ => tokens.resolve_nil r.resolvedAt b
    have hsizes : ∀ r ∈ pageReads calls, 0 < r.2 := by
      intro r hr
      obtain ⟨r', -, rfl⟩ := List.mem_map.mp hr
      simp
    have hreads := hwalk.toReads hsizes
    have hsnapshots : (pageReads calls).map Prod.fst = calls.map Call.items := by
      rw [pageReads, List.map_map]
      rfl
    rw [hsnapshots] at hreads
    have hpages : ∀ s ∈ calls.map Call.items, Ascending key compare s := by
      intro s hs
      obtain ⟨r, hr, rfl⟩ := List.mem_map.mp hs
      exact hasc r hr
    have hitems := hreads.ascending hpages
    refine ⟨hitems, fun t ht => existsUnique_index hitems ?_⟩
    have hall : ∀ s ∈ calls.map Call.items, ∃ u ∈ s, u = t := by
      intro s hs
      obtain ⟨r, hr, rfl⟩ := List.mem_map.mp hs
      exact ⟨t, ht r hr, rfl⟩
    obtain ⟨u, hu, rfl⟩ := hreads.complete hpages (fun u hu => by rw [hu]) hall rfl
    exact hu
  · intro s call hasc hs hcarries
    obtain ⟨m, hm⟩ := exists_walk none hasc (fun i => (max (call i).size 1).toNat) fun i => by simp
    rw [filter_isAfter_none] at hm
    refine ⟨m, traversal_of_walk ?_ (fun r hr => ?_)
      (fun r _ => tokens.resolve_nil r.resolvedAt b) ?_ hm⟩
    · rw [List.range_eq_range']
      exact works_of_calls (fun i => hs i ▸ hcarries i) 0 (m + 1)
    · obtain ⟨i, -, rfl⟩ := List.mem_map.mp hr
      exact hs i ▸ hasc
    · rw [pageReads, List.map_map]
      exact List.map_congr_left fun i _ => by rw [Function.comp, hs i]

def byteTokens : Typed UInt8 where
  codec := some ⟨fun now payload _ => .ok (UInt8.ofNat (now.nanos / 10 ^ 9).toNat :: payload),
    fun now token _ =>
      if now.nanos / 10 ^ 9 ≤ (token.headD 0).toNat + 10 then .ok token.tail
      else .error .expiredToken⟩
  marshal c := some [c]
  unmarshal payload := payload.head?

def callAt (items : List UInt8) (size : Int) (sec : Fin 100) : Call UInt8 :=
  ⟨items, size, ⟨sec * 10 ^ 9, by omega, by omega⟩, ⟨(sec + 1) * 10 ^ 9, by omega, by omega⟩⟩

/-- The item `3` that the first token points at is gone when the second page is read eight seconds
later, and `2` and `7` have come. -/
theorem slice_traversal_deleted :
    Traversal (newSlicePager byteTokens id compare) ⟨[], [], []⟩ []
      [callAt [1, 3, 5] 2 1, callAt [1, 2, 5, 7] 3 9] [1, 3, 5, 7] ∧
    ∃! i : Nat, [(1 : UInt8), 3, 5, 7][i]? = some 5 := by
  have hfirst : (newSlicePager byteTokens id compare).page (callAt [1, 3, 5] 2 1) [] ⟨[], [], []⟩ =
      .ok ⟨[1, 3], [2, 3]⟩ := rfl
  have hsecond : (newSlicePager byteTokens id compare).page (callAt [1, 2, 5, 7] 3 9) [2, 3]
      ⟨[], [], []⟩ = .ok ⟨[5, 7], []⟩ := rfl
  have hworks : byteTokens.Works id ⟨[], [], []⟩
      [callAt [1, 3, 5] 2 1, callAt [1, 2, 5, 7] 3 9] := by
    refine ⟨fun it _ => ⟨[2, it], rfl, by simp, ?_⟩,
      fun it _ => ⟨[10, it], rfl, by simp, ?_⟩, trivial⟩
    · rintro _ ⟨⟩
      rfl
    · rintro _ ⟨⟩
  have htraversal := Traversal.more hfirst (by simp) (.last hsecond)
  refine ⟨htraversal, (slice_traversal.1 _ _ hworks ?_ htraversal).2 5 ?_⟩
  · intro r hr
    simp only [List.mem_cons, List.not_mem_nil, or_false] at hr
    rcases hr with rfl | rfl
    · exact (by decide : [(1 : UInt8), 3, 5].Pairwise fun a b => compare a b = .lt)
    · exact (by decide : [(1 : UInt8), 2, 5, 7].Pairwise fun a b => compare a b = .lt)
  · intro r hr
    simp only [List.mem_cons, List.not_mem_nil, or_false] at hr
    rcases hr with rfl | rfl <;> decide

end GoAtlas.Keyset
