import GoAtlas.Lib.Bytes

/-!
# Quoted texts

A lexer's rule for a quoted text: its opening, its quote, whether two quotes in a row stand for one
inside the text, and what a backslash begins. `read` takes a literal off the front of an input: the
bytes it stands for, and what is left. A body that stands for some bytes is read back to them up to
its closing quote, unless what follows continues the text.
-/

namespace GoAtlas.Lib

structure QuoteRule where
  opening : Bytes
  quote : UInt8
  doubled : Bool
  /-- Whether a backslash begins an escape. -/
  escapes : Bool
  /-- What the bytes after a backslash stand for, and what is left of them. -/
  escape : Bytes → Option (Bytes × Bytes)
  /-- The bytes that may stand for themselves. -/
  raw : UInt8 → Bool
  /-- An escape puts nothing back. -/
  escape_length : ∀ {input p}, escape input = some p → p.2.length ≤ input.length

namespace QuoteRule

def backslash : UInt8 := 92

def after (bs : Bytes) (p : Bytes × Bytes) : Bytes × Bytes := (bs ++ p.1, p.2)

/-- The body and the closing quote of a literal; each step takes a byte at least. -/
def scan (r : QuoteRule) : Nat → Bytes → Option (Bytes × Bytes)
  | fuel + 1, c :: cs =>
    if c = r.quote then
      if r.doubled = true ∧ cs.head? = some r.quote then (r.scan fuel cs.tail).map (after [c])
      else some ([], cs)
    else if r.escapes = true ∧ c = backslash then
      (r.escape cs).bind fun p => (r.scan fuel p.2).map (after p.1)
    else if r.raw c then (r.scan fuel cs).map (after [c])
    else none
  | _, _ => none

def read (r : QuoteRule) (input : Bytes) : Option (Bytes × Bytes) :=
  if r.opening.isPrefixOf input then r.scan input.length (input.drop r.opening.length) else none

variable {r : QuoteRule} {body bs : Bytes}

theorem scan_length {fuel : Nat} {input : Bytes} {p : Bytes × Bytes}
    (h : r.scan fuel input = some p) :
    p.2.length < input.length := by
  induction fuel generalizing input p with
  | zero => simp [scan] at h
  | succ fuel ih =>
    cases input with
    | nil => simp [scan] at h
    | cons c cs =>
      rw [scan] at h
      split_ifs at h
      · obtain ⟨q, hq, rfl⟩ := Option.map_eq_some_iff.mp h
        have := ih hq
        simp only [after, List.length_tail, List.length_cons] at *
        omega
      · cases h
        simp
      · obtain ⟨e, he, h⟩ := Option.bind_eq_some_iff.mp h
        obtain ⟨q, hq, rfl⟩ := Option.map_eq_some_iff.mp h
        have := ih hq
        have := r.escape_length he
        simp only [after, List.length_cons]
        omega
      · obtain ⟨q, hq, rfl⟩ := Option.map_eq_some_iff.mp h
        have := ih hq
        simp only [after, List.length_cons]
        omega

/-! ## What a piece of a body stands for -/

/-- Inside a literal the bytes `u` are read as `bs`, whatever follows them. -/
def Stands (r : QuoteRule) (u bs : Bytes) : Prop :=
  ∀ k fuel, u.length + k.length ≤ fuel →
    ∃ fuel', k.length ≤ fuel' ∧ r.scan fuel (u ++ k) = (r.scan fuel' k).map (after bs)

theorem stands_nil : r.Stands [] [] := by
  intro k fuel h
  refine ⟨fuel, by simpa using h, ?_⟩
  rw [List.nil_append]
  cases r.scan fuel k <;> rfl

theorem Stands.append {u u' bs bs' : Bytes} (h : r.Stands u bs) (h' : r.Stands u' bs') :
    r.Stands (u ++ u') (bs ++ bs') := by
  intro k fuel hlen
  obtain ⟨f, hf, hu⟩ := h (u' ++ k) fuel (by simpa [Nat.add_assoc] using hlen)
  obtain ⟨f', hf', hu'⟩ := h' k f (by simpa using hf)
  refine ⟨f', hf', ?_⟩
  rw [List.append_assoc, hu, hu']
  cases r.scan f' k <;> simp [after]

theorem stands_flatMap {α : Type} {f g : α → Bytes} {l : List α}
    (h : ∀ x ∈ l, r.Stands (f x) (g x)) :
    r.Stands (l.flatMap f) (l.flatMap g) := by
  induction l with
  | nil => exact stands_nil
  | cons x xs ih => exact (h x (by simp)).append (ih fun y hy => h y (by simp [hy]))

theorem stands_self {c : UInt8} (hq : c ≠ r.quote) (he : r.escapes = true → c ≠ backslash)
    (hraw : r.raw c = true) : r.Stands [c] [c] := by
  intro k fuel hlen
  obtain ⟨f, rfl⟩ : ∃ f, fuel = f + 1 := ⟨fuel - 1, by simp at hlen; omega⟩
  refine ⟨f, by simp at hlen; omega, ?_⟩
  rw [List.singleton_append, scan, if_neg hq, if_neg fun h => he h.1 h.2, if_pos hraw]

theorem stands_plain {u : Bytes} (hq : r.quote ∉ u) (he : r.escapes = true → backslash ∉ u)
    (hraw : ∀ c ∈ u, r.raw c = true) : r.Stands u u := by
  have := stands_flatMap (r := r) (f := fun c => [c]) (g := fun c => [c]) (l := u) fun c hc =>
    stands_self (fun h => hq (h ▸ hc)) (fun hes h => he hes (h ▸ hc)) (hraw c hc)
  rwa [List.flatMap_singleton'] at this

theorem stands_escape {e bs : Bytes} (hq : backslash ≠ r.quote) (he : r.escapes = true)
    (h : ∀ k, r.escape (e ++ k) = some (bs, k)) : r.Stands (backslash :: e) bs := by
  intro k fuel hlen
  obtain ⟨f, rfl⟩ : ∃ f, fuel = f + 1 := ⟨fuel - 1, by simp at hlen; omega⟩
  refine ⟨f, by simp at hlen; omega, ?_⟩
  rw [List.cons_append, scan, if_neg hq, if_pos ⟨he, rfl⟩, h]
  rfl

theorem stands_doubled (hd : r.doubled = true) : r.Stands [r.quote, r.quote] [r.quote] := by
  intro k fuel hlen
  obtain ⟨f, rfl⟩ : ∃ f, fuel = f + 1 := ⟨fuel - 1, by simp at hlen; omega⟩
  refine ⟨f, by simp at hlen; omega, ?_⟩
  rw [List.cons_append, scan, if_pos rfl, if_pos ⟨hd, rfl⟩]
  rfl

/-! ## Whole literals -/

/-- The text after a closing quote does not continue the literal. -/
def Ends (r : QuoteRule) (k : Bytes) : Prop := r.doubled = true → k.head? ≠ some r.quote

/-- A literal is read up to its closing quote, or on into what continues it. -/
theorem Stands.read (h : r.Stands body bs) (k : Bytes) :
    (r.Ends k → r.read (r.opening ++ body ++ r.quote :: k) = some (bs, k)) ∧
      (¬ r.Ends k → ∀ p, r.read (r.opening ++ body ++ r.quote :: k) = some p →
      p.2.length < k.length) := by
  obtain ⟨fuel, hfuel, hscan⟩ :=
    h (r.quote :: k) (r.opening ++ body ++ r.quote :: k).length (by simp)
  obtain ⟨f, rfl⟩ : ∃ f, fuel = f + 1 := ⟨fuel - 1, by simp at hfuel; omega⟩
  have hread : r.read (r.opening ++ body ++ r.quote :: k) = (r.scan (f + 1) (r.quote :: k)).map
      (after bs) := by
    have hpre : r.opening.isPrefixOf (r.opening ++ body ++ r.quote :: k) = true := by
      rw [List.isPrefixOf_iff_prefix, List.append_assoc]
      exact List.prefix_append _ _
    rw [QuoteRule.read, if_pos hpre, ← hscan]
    simp
  rw [hread, scan, if_pos rfl]
  constructor
  · intro hends
    rw [if_neg fun hc => hends hc.1 hc.2]
    simp [after]
  · intro hends p hp
    have hc : r.doubled = true ∧ k.head? = some r.quote := by
      simpa [Ends, Classical.not_imp, not_not] using hends
    rw [if_pos hc] at hp
    obtain ⟨q, hq, rfl⟩ := Option.map_eq_some_iff.mp hp
    obtain ⟨q', hq', rfl⟩ := Option.map_eq_some_iff.mp hq
    have := scan_length hq'
    simp only [after, List.length_tail] at *
    omega

theorem Stands.rest_iff (h : r.Stands body bs) (k : Bytes) :
    (r.read (r.opening ++ body ++ r.quote :: k)).map Prod.snd = some k ↔ r.Ends k := by
  constructor
  · intro heq
    by_contra hends
    obtain ⟨p, hp, rfl⟩ := Option.map_eq_some_iff.mp heq
    exact absurd ((h.read _).2 hends p hp) (by simp)
  · intro hends
    rw [(h.read k).1 hends]
    rfl

theorem Stands.read_iff (h : r.Stands body bs) (k : Bytes) :
    r.read (r.opening ++ body ++ r.quote :: k) = some (bs, k) ↔ r.Ends k :=
  ⟨fun heq => (h.rest_iff k).mp (by rw [heq]; rfl), (h.read k).1⟩

end QuoteRule

/-! ## Writers -/

/-- Each byte of the table replaced by its text, the others as they are. -/
def replaceBytes (table : List (UInt8 × Bytes)) (s : Bytes) : Bytes :=
  s.flatMap fun c => (table.lookup c).getD [c]

/-- A replaced string stands for what its bytes stand for, one by one. -/
theorem QuoteRule.stands_replaceBytes {r : QuoteRule} {table : List (UInt8 × Bytes)}
    {g : UInt8 → Bytes} (hentry : ∀ p ∈ table, r.Stands p.2 (g p.1))
    (hother : ∀ c, table.lookup c = none → r.Stands [c] (g c)) (s : Bytes) :
    r.Stands (replaceBytes table s) (s.flatMap g) := by
  refine stands_flatMap fun c _ => ?_
  cases hl : table.lookup c with
  | none => exact hother c hl
  | some text =>
    obtain ⟨l₁, l₂, rfl, -⟩ := List.lookup_eq_some_iff.mp hl
    exact hentry (c, text) (by simp)

end GoAtlas.Lib
