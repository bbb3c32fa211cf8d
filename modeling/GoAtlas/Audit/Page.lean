import GoAtlas.Keyset.Codec
import GoAtlas.Lib.KeysetWalk
import GoAtlas.Lib.Numeral
import GoAtlas.Lib.Split

/-!
# Pages of the audit log

`FetchPage` of `data/audit` on the memory storage. The storage holds events in any number of copies
and orders them by their millisecond and ID; a page asks for one row more than it may return,
collapses the copies of a key, and hands out a token with the key of its last event. Between the
pages the storage may become anything.

The fingerprint of the filter is a parameter: the pages of one traversal have the same filter, and
only that matters.
-/

namespace GoAtlas.Audit

open Lib Lib.Keyset Std Keyset

/-! ## Events and queries -/

structure Event where
  timestamp : Keyset.Instant
  id : Bytes
  eventType : Bytes
  action : Bytes
  actorId : Bytes
  actorType : Bytes
  resourceType : Bytes
  resourceId : Bytes
  status : Bytes
  requestId : Bytes
  traceId : Bytes

structure Filter where
  startTime : Option Keyset.Instant
  endTime : Option Keyset.Instant
  actorId : Bytes
  actorType : Bytes
  resourceType : Bytes
  resourceId : Bytes
  eventType : Bytes
  action : Bytes
  status : Bytes
  requestId : Bytes
  traceId : Bytes

/-- An empty field of the filter matches everything. -/
def matchesField (want have' : Bytes) : Bool := want == [] || have' == want

def matchesQuery (e : Event) (q : Filter) : Bool :=
  let ms := e.timestamp.unixMilli
  !(q.startTime.any fun t => ms < t.unixMilli) && !(q.endTime.any fun t => t.unixMilli < ms) &&
    matchesField q.actorId e.actorId && matchesField q.actorType e.actorType &&
    matchesField q.resourceType e.resourceType && matchesField q.resourceId e.resourceId &&
    matchesField q.eventType e.eventType && matchesField q.action e.action &&
      matchesField q.status e.status &&
    matchesField q.requestId e.requestId && matchesField q.traceId e.traceId

/-- A position; only the milliseconds of its time count. -/
structure Cursor where
  ms : Int
  id : Bytes
  deriving DecidableEq

def cursorOf (e : Event) : Cursor := ⟨e.timestamp.unixMilli, e.id⟩

def Cursor.compare : Cursor → Cursor → Ordering :=
  compareLex (compareOn Cursor.ms) (compareOn Cursor.id)

def sortOrderAsc : Bytes := [97, 115, 99]

def sortOrderDesc : Bytes := [100, 101, 115, 99]

structure Query where
  filter : Filter
  limit : Int
  sortOrder : Bytes
  after : Bytes
  subject : Bytes

def Query.asc (q : Query) : Bool := q.sortOrder == sortOrderAsc

def effectiveOrder (o : Bytes) : Bytes := if o = sortOrderAsc then sortOrderAsc else sortOrderDesc

def directed (asc : Bool) (a b : Cursor) : Ordering :=
  if asc then a.compare b else (a.compare b).swap

instance : TransCmp Cursor.compare := inferInstanceAs (TransCmp (compareLex _ _))

instance : LawfulEqCmp Cursor.compare where
  eq_of_compare {a b} h := by
    obtain ⟨hms, hid⟩ := Ordering.then_eq_eq.mp h
    cases a
    cases b
    exact congrArg₂ Cursor.mk (LawfulEqCmp.eq_of_compare hms) (LawfulEqCmp.eq_of_compare hid)

theorem directed_eq (asc : Bool) : directed asc = if asc then Cursor.compare else fun a b =>
    b.compare a := by
  funext a b
  cases asc with
  | true => rfl
  | false => exact OrientedCmp.eq_swap.symm

instance (asc : Bool) : TransCmp (directed asc) := by
  rw [directed_eq]
  cases asc
  · exact inferInstanceAs (TransCmp fun a b => Cursor.compare b a)
  · exact inferInstanceAs (TransCmp Cursor.compare)

theorem directed_eq_iff {asc : Bool} {a b : Cursor} : directed asc a b = .eq ↔ a = b := by
  have hcompare : a.compare b = .eq ↔ a = b := LawfulEqCmp.compare_eq_iff_eq
  rw [← hcompare]
  cases asc <;> cases h : a.compare b <;> simp [directed, h]

/-! ## The memory storage -/

def query (events : List Event) (f : Filter) (asc : Bool) (cursor : Option Cursor) (limit : Int) :
    List Event :=
  let sorted := events.mergeSort fun a b => (directed asc (cursorOf a) (cursorOf b)).isLE
  let limit := if limit ≤ 0 then events.length else limit.toNat
  ((sorted.filter (matchesQuery · f)).filter (isAfter cursorOf (directed asc) cursor)).take limit

/-! ## `FetchPage` -/

def defaultPageSize : Int := 100

def maxPageSize : Int := 10000

def pageSize (requested dflt maxSize : Int) : Int :=
  let maxSize := max maxSize 1
  if 0 < requested then if maxSize < requested then maxSize else min (max requested 1) maxSize
  else min (max dflt 1) maxSize

inductive Error where
  | pagingNotConfigured
  | encode (err : Keyset.Error)
  | decode (err : Keyset.Error)
  | outOfRange

structure Page where
  events : List Event
  next : Bytes

/-- When a page resolves its token, and when it issues one. -/
structure Clock where
  resolve : Keyset.Instant
  issue : Keyset.Instant

def pipe : UInt8 := 124

section Tokens

variable (hmac : Bytes → Bytes → Sum) (sha256 : Bytes → Sum) (filterFingerprint : Filter → Bytes)

def bindings (q : Query) : Bindings :=
  ⟨effectiveOrder q.sortOrder, filterFingerprint q.filter, q.subject⟩

def encode (c : Codec) (now : Keyset.Instant) (e : Event) (q : Query) : Except Error Bytes :=
  let payload := signed (cursorOf e).ms ++ pipe :: (cursorOf e).id
  (c.issue hmac sha256 now payload (bindings filterFingerprint q)).mapError .encode

def decode (c : Codec) (now : Keyset.Instant) (token : Bytes) (q : Query) : Except Error Cursor :=
  match c.resolve hmac sha256 now token (bindings filterFingerprint q) with
  | .error err => .error (.decode err)
  | .ok payload =>
    match cut pipe payload with
    | none => .error (.decode .invalidToken)
    | some (millis, id) =>
      match parseInt millis with
      | none => .error (.decode .invalidToken)
      | some ms => .ok ⟨ms, id⟩

def resolveCursor (tokens : Option Codec) (now : Keyset.Instant) (q : Query) :
    Except Error (Option Cursor) :=
  if q.after = [] then .ok none
  else match tokens with
    | none => .error .pagingNotConfigured
    | some c => (decode hmac sha256 filterFingerprint c now q.after q).map some

/-- The page of the rows that the storage returned for one more than `limit`. -/
def pageOf (tokens : Option Codec) (now : Keyset.Instant) (q : Query) (limit : Int)
    (fetched : List Event) : Except Error Page :=
  let events := (collapse cursorOf Cursor.compare none fetched).take limit.toNat
  match tokens with
  | none => .ok ⟨events, []⟩
  | some c =>
    if fetched.length ≤ limit then .ok ⟨events, []⟩
    else match events.getLast? with
      | none => .error .outOfRange
      | some e => (encode hmac sha256 filterFingerprint c now e q).map fun next => ⟨events, next⟩

def fetchPage (tokens : Option Codec) (clock : Clock) (stored : List Event) (q : Query) :
    Except Error Page :=
  let limit := pageSize q.limit defaultPageSize maxPageSize
  match resolveCursor hmac sha256 filterFingerprint tokens clock.resolve q with
  | .error err => .error err
  | .ok cursor =>
    pageOf hmac sha256 filterFingerprint tokens clock.issue q limit
      (query stored q.filter q.asc cursor (limit + 1))

/-- One read of a traversal: what the storage holds by then, the size asked for, and the times. -/
structure Read where
  stored : List Event
  limit : Int
  clock : Clock

/-- The pages from a token on, each with the token of the page before, their events, and the token
of the last of them. -/
inductive Traversal (c : Codec) (q : Query) : Bytes → List Read → List Event → Bytes → Prop where
  | page {token next : Bytes} {r : Read} {events : List Event}
      (hpage : fetchPage hmac sha256 filterFingerprint (some c) r.clock r.stored
        { q with after := token, limit := r.limit } = .ok ⟨events, next⟩) :
      Traversal c q token [r] events next
  | more {token next last : Bytes} {r : Read} {reads : List Read} {events later : List Event}
      (hpage : fetchPage hmac sha256 filterFingerprint (some c) r.clock r.stored
        { q with after := token, limit := r.limit } = .ok ⟨events, next⟩)
      (hnext : next ≠ []) (hrest : Traversal c q next reads later last) :
      Traversal c q token (r :: reads) (events ++ later) last

end Tokens

/-! ## Rows and their keys -/

section Rows

variable {asc : Bool} {stored : List Event} {f : Filter}

def rows (stored : List Event) (f : Filter) (asc : Bool) : List Event :=
  (stored.mergeSort fun a b => (directed asc (cursorOf a) (cursorOf b)).isLE).filter
    (matchesQuery · f)

/-- One matching event for each key. -/
def distinct (stored : List Event) (f : Filter) (asc : Bool) : List Event :=
  collapse cursorOf (directed asc) none (rows stored f asc)

theorem mem_rows {e : Event} : e ∈ rows stored f asc ↔ e ∈ stored ∧ matchesQuery e f = true := by
  unfold rows
  rw [List.mem_filter, List.mem_mergeSort]

theorem sorted_rows : Sorted cursorOf (directed asc) (rows stored f asc) := by
  have htotal : ∀ a b : Event, ((directed asc (cursorOf a) (cursorOf b)).isLE ||
      (directed asc (cursorOf b) (cursorOf a)).isLE) = true := by
    intro a b
    cases h : directed asc (cursorOf a) (cursorOf b) with
    | lt | eq => rfl
    | gt => rw [OrientedCmp.gt_iff_lt.mp h]; rfl
  have htrans : ∀ a b d : Event, (directed asc (cursorOf a) (cursorOf b)).isLE = true →
      (directed asc (cursorOf b) (cursorOf d)).isLE = true →
      (directed asc (cursorOf a) (cursorOf d)).isLE = true :=
    fun _ _ _ => TransCmp.isLE_trans
  have hsorted := List.pairwise_mergeSort htrans htotal stored
  exact (hsorted.imp fun hle => Ordering.ne_gt_iff_isLE.mpr hle).filter _

theorem ascending_distinct : Ascending cursorOf (directed asc) (distinct stored f asc) :=
  (ascending_collapse sorted_rows (fun _ hp => by cases hp)).1

theorem mem_of_mem_distinct {e : Event} (h : e ∈ distinct stored f asc) :
    e ∈ stored ∧ matchesQuery e f = true :=
  mem_rows.mp (collapse_sublist.mem h)

theorem exists_mem_distinct {e : Event} (hmem : e ∈ stored) (hmatch : matchesQuery e f = true) :
    ∃ u ∈ distinct stored f asc, cursorOf u = cursorOf e := by
  have hrow : e ∈ rows stored f asc := mem_rows.mpr ⟨hmem, hmatch⟩
  rcases @exists_mem_collapse _ _ cursorOf (directed asc) none _ _ hrow
    with hcopy | ⟨u, hu, rfl | hsame⟩
  · cases hcopy
  · exact ⟨u, hu, rfl⟩
  · exact ⟨u, hu, (directed_eq_iff.mp hsame).symm⟩

theorem collapse_compare (asc : Bool) (last : Option Cursor) (es : List Event) :
    collapse cursorOf Cursor.compare last es = collapse cursorOf (directed asc) last es := by
  have hcopy : ∀ (last : Option Cursor) (e : Event),
      isCopy cursorOf Cursor.compare last e = isCopy cursorOf (directed asc) last e := by
    intro last e
    cases last with
    | none => rfl
    | some p =>
      refine decide_eq_decide.mpr ?_
      rw [directed_eq_iff]
      exact LawfulEqCmp.compare_eq_iff_eq
  induction es generalizing last with
  | nil => rfl
  | cons e es ih => rw [collapse, collapse, hcopy, ih, ih]

theorem collapse_rows (after : Option Cursor) :
    collapse cursorOf Cursor.compare none
      ((rows stored f asc).filter (isAfter cursorOf (directed asc) after)) =
      (distinct stored f asc).filter (isAfter cursorOf (directed asc) after) := by
  rw [collapse_compare asc]
  refine collapse_filter (fun t u heq => ?_) sorted_rows (fun _ hp => by cases hp) fun _ _ _ => rfl
  unfold isAfter
  rw [directed_eq_iff.mp heq]

end Rows

/-! ## Tokens and pages -/

section Pages

variable {hmac : Bytes → Bytes → Sum} {sha256 : Bytes → Sum} {filterFingerprint : Filter → Bytes}
variable {c : Codec} {q : Query} {token next : Bytes} {after : Option Cursor} {now : Keyset.Instant}

inductive Position (hmac : Bytes → Bytes → Sum) (sha256 : Bytes → Sum)
    (filterFingerprint : Filter → Bytes) (c : Codec) (q : Query) :
    Bytes → Option Cursor → Prop where
  | start : Position hmac sha256 filterFingerprint c q [] none
  | issued {now : Keyset.Instant} {e : Event} {token : Bytes}
      (h : encode hmac sha256 filterFingerprint c now e q = .ok token) :
      Position hmac sha256 filterFingerprint c q token (some (cursorOf e))

theorem issue_of_encode {e : Event}
    (h : encode hmac sha256 filterFingerprint c now e q = .ok token) :
    c.issue hmac sha256 now (signed (cursorOf e).ms ++ pipe :: (cursorOf e).id)
      (bindings filterFingerprint q) =
      .ok token := by
  unfold encode at h
  dsimp only at h
  cases hissue : c.issue hmac sha256 now (signed (cursorOf e).ms ++ pipe :: (cursorOf e).id)
      (bindings filterFingerprint q) with
  | error err =>
    rw [hissue] at h
    cases h
  | ok token' =>
    rw [hissue] at h
    cases h
    rfl

theorem pipe_not_mem_signed (n : Int) : pipe ∉ signed n := by
  intro hmem
  rcases mem_signed hmem with h | ⟨-, h⟩
  · cases h
  · exact absurd h (by decide)

theorem decode_encode {now now' : Keyset.Instant} {e : Event} {cursor : Cursor}
    (h : encode hmac sha256 filterFingerprint c now e q = .ok token)
    (h' : decode hmac sha256 filterFingerprint c now' token q = .ok cursor) :
    token ≠ [] ∧ cursor = cursorOf e := by
  obtain ⟨hne, hpayload⟩ := resolve_of_issue (issue_of_encode h)
  refine ⟨hne, ?_⟩
  unfold decode at h'
  split at h'
  · cases h'
  · rename_i payload hresolve
    rw [hpayload hresolve, cut_append (pipe_not_mem_signed _)] at h'
    dsimp only at h'
    have hms : parseInt (signed (cursorOf e).ms) = some (cursorOf e).ms :=
      parseInt_signed e.timestamp.fits.1 e.timestamp.fits.2
    rw [hms] at h'
    exact (Except.ok.inj h').symm

theorem Position.resolveCursor (h : Position hmac sha256 filterFingerprint c q token after)
    {limit : Int} {cursor : Option Cursor}
    (hcursor : resolveCursor hmac sha256 filterFingerprint (some c) now
      { q with after := token, limit := limit } = .ok cursor) : cursor = after := by
  unfold Audit.resolveCursor at hcursor
  cases h with
  | start => exact (Except.ok.inj hcursor).symm
  | @issued now' e token hencode =>
    rw [if_neg (resolve_of_issue (issue_of_encode hencode)).1] at hcursor
    dsimp only at hcursor
    cases hdecode : decode hmac sha256 filterFingerprint c now token
      { q with after := token, limit := limit } with
    | error err =>
      rw [hdecode] at hcursor
      cases hcursor
    | ok cur =>
      rw [hdecode] at hcursor
      rw [(decode_encode hencode hdecode).2] at hcursor
      exact (Except.ok.inj hcursor).symm

theorem pageSize_pos (requested : Int) : 1 ≤ pageSize requested defaultPageSize maxPageSize := by
  unfold pageSize defaultPageSize maxPageSize
  dsimp only
  split
  · split <;> omega
  · omega

/-- A page without a token is all of the rest; another one is a part of it that ends with the event
of its token. -/
theorem pageOf_spec {limit : Int} (hlimit : 1 ≤ limit) {rest events : List Event}
    (hpage : pageOf hmac sha256 filterFingerprint (some c) now q limit
    (rest.take (limit + 1).toNat) =
      .ok ⟨events, next⟩) :
    (next = [] ∧ events = collapse cursorOf Cursor.compare none rest) ∨
      ∃ front e back, collapse cursorOf Cursor.compare none rest = front ++ e :: back ∧
        events = front ++ [e] ∧
        next ≠ [] ∧ Position hmac sha256 filterFingerprint c q next (some (cursorOf e)) := by
  unfold pageOf at hpage
  dsimp only at hpage
  split at hpage
  · -- fewer rows than asked for: these are all
    rename_i hfew
    rw [List.length_take] at hfew
    have hall : rest.take (limit + 1).toNat = rest := List.take_of_length_le (by omega)
    have hlen : (collapse cursorOf Cursor.compare none rest).length ≤ rest.length :=
      collapse_sublist.length_le
    rw [hall] at hpage
    cases hpage
    exact .inl ⟨rfl, List.take_of_length_le (by omega)⟩
  · split at hpage
    · cases hpage
    · rename_i e hlast
      obtain ⟨front, hfront⟩ := List.getLast?_eq_some_iff.mp hlast
      have hprefix : front ++ [e] <+: collapse cursorOf Cursor.compare none rest := by
        rw [← hfront]
        refine (List.take_prefix _ _).trans ?_
        have hcut :=
          @isPrefix_collapse_append _ _ cursorOf Cursor.compare none (rest.take (limit + 1).toNat)
          (rest.drop (limit + 1).toNat)
        rwa [List.take_append_drop] at hcut
      obtain ⟨back, hback⟩ := hprefix
      rw [hfront] at hpage
      cases hencode : encode hmac sha256 filterFingerprint c now e q with
      | error err =>
        rw [hencode] at hpage
        cases hpage
      | ok next' =>
        rw [hencode] at hpage
        cases hpage
        refine .inr ⟨front, e, back, ?_, rfl, (resolve_of_issue (issue_of_encode hencode)).1,
          .issued hencode⟩
        rw [← hback, List.append_assoc, List.singleton_append]

def left (q : Query) (after : Option Cursor) (r : Read) : List Event :=
  (distinct r.stored q.filter q.asc).filter (isAfter cursorOf (directed q.asc) after)

theorem fetchPage_spec (hpos : Position hmac sha256 filterFingerprint c q token after) {r : Read}
    {events : List Event} (hpage : fetchPage hmac sha256 filterFingerprint (some c) r.clock r.stored
      { q with after := token, limit := r.limit } = .ok ⟨events, next⟩) :
    (next = [] ∧ events = left q after r) ∨
      ∃ front e back, left q after r = front ++ e :: back ∧ events = front ++ [e] ∧ next ≠ [] ∧
        Position hmac sha256 filterFingerprint c q next (some (cursorOf e)) := by
  unfold fetchPage at hpage
  dsimp only at hpage
  split at hpage
  · cases hpage
  · rename_i cursor hcursor
    obtain rfl := hpos.resolveCursor hcursor
    have hlimit := pageSize_pos r.limit
    have hquery : query r.stored q.filter q.asc cursor
      (pageSize r.limit defaultPageSize maxPageSize + 1) =
        ((rows r.stored q.filter q.asc).filter (isAfter cursorOf (directed q.asc) cursor)).take
          (pageSize r.limit defaultPageSize maxPageSize + 1).toNat := by
      unfold query rows
      dsimp only
      rw [if_neg (by omega)]
    unfold left
    rw [← collapse_rows]
    exact pageOf_spec (q := q) hlimit (hquery ▸ hpage)

/-! ## Traversals -/

variable {reads : List Read} {items : List Event} {last : Bytes}

theorem Traversal.toReads (h : Traversal hmac sha256 filterFingerprint c q token reads items last)
    (hlast : last = []) (hpos : Position hmac sha256 filterFingerprint c q token after) :
    Reads cursorOf (directed q.asc) after
      (reads.map fun r => distinct r.stored q.filter q.asc) items := by
  induction h generalizing after with
  | page hpage =>
    rcases fetchPage_spec hpos hpage with ⟨-, rfl⟩ | ⟨-, -, -, -, -, hnext, -⟩
    · exact .last
    · exact absurd hlast hnext
  | more hpage hnext hrest ih =>
    rcases fetchPage_spec hpos hpage with ⟨hnil, -⟩ | ⟨front, e, back, hcut, rfl, -, hpos'⟩
    · exact absurd hnil hnext
    · rw [List.append_assoc, List.singleton_append]
      exact .more hcut (ih hlast hpos')

theorem Traversal.length_le {stored : List Event}
    (h : Traversal hmac sha256 filterFingerprint c q token reads items last) (hlast : last ≠ [])
    (hpos : Position hmac sha256 filterFingerprint c q token after)
    (hfixed : ∀ r ∈ reads, r.stored = stored) :
    reads.length ≤
      ((distinct stored q.filter q.asc).filter
      (isAfter cursorOf (directed q.asc) after)).length := by
  induction h generalizing after with
  | page hpage =>
    obtain rfl := hfixed _ List.mem_cons_self
    rcases fetchPage_spec hpos hpage with ⟨hnil, -⟩ | ⟨front, e, back, hcut, -⟩
    · exact absurd hnil hlast
    · unfold left at hcut
      rw [hcut]
      simp only [List.length_append, List.length_cons, List.length_nil]
      omega
  | more hpage hnext hrest ih =>
    obtain ⟨rfl, hfixed⟩ := List.forall_mem_cons.mp hfixed
    rcases fetchPage_spec hpos hpage with ⟨hnil, -⟩ | ⟨front, e, back, hcut, -, -, hpos'⟩
    · exact absurd hnil hnext
    · unfold left at hcut
      have hless := ih hlast hpos' hfixed
      rw [filter_after ascending_distinct hcut] at hless
      rw [hcut, List.length_append, List.length_cons, List.length_cons]
      omega

theorem Traversal.ne_nil (h : Traversal hmac sha256 filterFingerprint c q token reads items last) :
    reads ≠ [] := by
  cases h <;> exact List.cons_ne_nil _ _

end Pages

theorem length_distinct_le (stored : List Event) (f : Filter) (asc : Bool) :
    (distinct stored f asc).length ≤ stored.length := by
  have hrows : (rows stored f asc).length ≤ stored.length :=
    (List.length_filter_le _ _).trans (List.length_mergeSort stored).le
  exact (collapse_sublist.length_le).trans hrows

/-- A traversal that follows the tokens to the end returns events with strictly monotone keys, all
of them matching events of the storage, and exactly one event for every key that had a matching
event in all reads; and on a storage that does not change no traversal is longer than the
storage. -/
theorem audit_traversal (hmac : Bytes → Bytes → Sum) (sha256 : Bytes → Sum)
    (filterFingerprint : Filter → Bytes) (c : Codec) (q : Query) :
    (∀ reads items, Traversal hmac sha256 filterFingerprint c q [] reads items [] →
      ((items.map cursorOf).Pairwise fun a b => directed q.asc a b = .lt) ∧
        (∀ e ∈ items, ∃ r ∈ reads, e ∈ r.stored ∧ matchesQuery e q.filter = true) ∧
        ∀ k, (∀ r ∈ reads, ∃ e ∈ r.stored, matchesQuery e q.filter = true ∧ cursorOf e = k) →
          ∃! i : Nat, (items.map cursorOf)[i]? = some k) ∧
    ∀ stored reads items next, (∀ r ∈ reads, r.stored = stored) → next ≠ [] →
      Traversal hmac sha256 filterFingerprint c q [] reads items next →
        reads.length ≤ stored.length := by
  constructor
  · intro reads items h
    have hreads := h.toReads rfl .start
    have hsnapshots : ∀ s ∈ reads.map fun r => distinct r.stored q.filter q.asc,
        Ascending cursorOf (directed q.asc) s := by
      intro s hs
      obtain ⟨r, -, rfl⟩ := List.mem_map.mp hs
      exact ascending_distinct
    have hasc := hreads.ascending hsnapshots
    have hkeys : (items.map cursorOf).Pairwise fun a b => directed q.asc a b = .lt :=
      List.pairwise_map.mpr hasc
    refine ⟨hkeys, fun e he => ?_, fun k hk => ?_⟩
    · obtain ⟨s, hs, hmem⟩ := hreads.exists_mem he
      obtain ⟨r, hr, rfl⟩ := List.mem_map.mp hs
      exact ⟨r, hr, mem_of_mem_distinct hmem⟩
    · -- the key as the position of an event of the first read
      obtain ⟨r, hr⟩ := List.exists_mem_of_ne_nil _ h.ne_nil
      obtain ⟨e, -, -, rfl⟩ := hk r hr
      have hall : ∀ s ∈ reads.map fun r => distinct r.stored q.filter q.asc, ∃ u ∈ s, cursorOf u =
          cursorOf e := by
        intro s hs
        obtain ⟨r, hr, rfl⟩ := List.mem_map.mp hs
        obtain ⟨u, hu, hmatch, hkey⟩ := hk r hr
        obtain ⟨v, hv, hsame⟩ := @exists_mem_distinct q.asc _ _ _ hu hmatch
        exact ⟨v, hv, hsame.trans hkey⟩
      obtain ⟨u, hu, hkey⟩ := hreads.complete hsnapshots (fun _ hu => hu) hall rfl
      have hids : Ascending id (directed q.asc) (items.map cursorOf) := hkeys
      exact existsUnique_index hids (List.mem_map.mpr ⟨u, hu, hkey⟩)
  · intro stored reads items next hfixed hnext h
    refine (h.length_le hnext .start hfixed).trans ?_
    exact (List.length_filter_le _ _).trans (length_distinct_le stored q.filter q.asc)

def login : Event := ⟨⟨1000000, by decide⟩, [97], [], [], [], [], [], [], [], [], []⟩

def logout : Event := ⟨⟨2000000, by decide⟩, [97], [], [], [], [], [], [], [], [], []⟩

def everything : Query :=
  ⟨⟨none, none, [], [], [], [], [], [], [], [], []⟩, 10, sortOrderAsc, [], []⟩

def atMidnight : Clock := ⟨halfMilli, halfMilli⟩

def afterLogin : Bytes :=
  (encode (fun _ _ => zeroSum) (fun _ => zeroSum) (fun _ => []) plainCodec halfMilli login
    everything).toOption.getD []

theorem afterLogin_ne_nil : afterLogin ≠ [] := by decide +kernel

theorem query_of_sorted {events : List Event} {f : Filter} {cursor : Option Cursor} {limit : Int}
    (h : events.Pairwise fun a b => (directed true (cursorOf a) (cursorOf b)).isLE = true) :
    query events f true cursor limit =
      ((events.filter (matchesQuery · f)).filter (isAfter cursorOf (directed true) cursor)).take
        (if limit ≤ 0 then events.length else limit.toNat) := by
  unfold query
  rw [List.mergeSort_of_pairwise h]

theorem firstPage :
    fetchPage (fun _ _ => zeroSum) (fun _ => zeroSum) (fun _ => []) (some plainCodec)
    atMidnight [login, logout, logout] { everything with after := [], limit := 1 } =
      .ok ⟨[login], afterLogin⟩ := by
  have hquery : query [login, logout, logout] everything.filter true none 2 = [login, logout] :=
    (query_of_sorted (by decide)).trans rfl
  unfold fetchPage
  change pageOf _ _ _ _ _ _ _ (query [login, logout, logout] everything.filter true none 2) = _
  rw [hquery]
  rfl

theorem secondPage :
    fetchPage (fun _ _ => zeroSum) (fun _ => zeroSum) (fun _ => []) (some plainCodec)
    atMidnight [logout, logout] { everything with after := afterLogin, limit := 10 } =
      .ok ⟨[logout], []⟩ := by
  have htoken : (resolveCursor (fun _ _ => zeroSum) (fun _ => zeroSum) (fun _ => [])
    (some plainCodec)
      halfMilli { everything with after := afterLogin, limit := 10 }).toOption =
      some (some (cursorOf login)) := by decide +kernel
  have hquery : query [logout, logout] everything.filter true (some (cursorOf login)) 11 =
      [logout, logout] := (query_of_sorted (by decide)).trans rfl
  unfold fetchPage
  dsimp only [atMidnight]
  cases hcursor : resolveCursor (fun _ _ => zeroSum) (fun _ => zeroSum) (fun _ => [])
    (some plainCodec)
      halfMilli { everything with after := afterLogin, limit := 10 } with
  | error err =>
    rw [hcursor] at htoken
    cases htoken
  | ok cursor =>
    rw [hcursor] at htoken
    cases htoken
    change pageOf _ _ _ _ _ _ _
      (query [logout, logout] everything.filter true (some (cursorOf login)) 11) = _
    rw [hquery]
    rfl

/-- The first event is gone when the second page is read. -/
theorem audit_traversal_copies :
    Traversal (fun _ _ => zeroSum) (fun _ => zeroSum) (fun _ => []) plainCodec everything []
      [⟨[login, logout, logout], 1, atMidnight⟩, ⟨[logout, logout], 10, atMidnight⟩]
      [login, logout] [] ∧
    ∃! i : Nat, ([login, logout].map cursorOf)[i]? = some (cursorOf logout) := by
  have htraversal : Traversal (fun _ _ => zeroSum) (fun _ => zeroSum) (fun _ => [])
    plainCodec everything []
      [⟨[login, logout, logout], 1, atMidnight⟩, ⟨[logout, logout], 10, atMidnight⟩]
      ([login] ++ [logout]) [] := .more firstPage afterLogin_ne_nil (.page secondPage)
  refine ⟨htraversal, ((audit_traversal _ _ _ _ _).1 _ _ htraversal).2.2 _ fun r hr => ?_⟩
  simp only [List.mem_cons, List.not_mem_nil, or_false] at hr
  rcases hr with rfl | rfl
  · exact ⟨logout, by simp, rfl, rfl⟩
  · exact ⟨logout, by simp, rfl, rfl⟩

end GoAtlas.Audit
