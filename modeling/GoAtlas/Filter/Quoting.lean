import GoAtlas.Filter.Sql.Dialect
import GoAtlas.Lib.QuotedText

/-!
# String literals, byte by byte

How the backends write a string as a literal, over arbitrary bytes, and the rule by which each of
them reads one. The literal is read back to the string, and no further, whatever follows it, with
two exceptions: the SQL rules take a quote right after the closing one for part of the text, and
the Meilisearch writer goes through runes, so that it keeps valid UTF-8 only.
-/

namespace GoAtlas.Filter.Quoting

open GoAtlas.Lib QuoteRule

def utf8 (s : String) : Bytes := s.toList.flatMap String.utf8EncodeChar

theorem toNat_of_mem_utf8EncodeChar {c : Char} {b : UInt8} (hb : b ∈ String.utf8EncodeChar c)
    (hlt : b.toNat < 128) : c.toNat = b.toNat := by
  rw [String.utf8EncodeChar] at hb
  have hc : c.toNat = c.val.toNat := rfl
  split_ifs at hb <;> simp only [List.mem_cons, List.not_mem_nil, or_false] at hb
  · rw [hb, UInt8.toNat_ofNat']
    omega
  all_goals
    rcases hb with rfl | rfl | rfl | rfl <;> rw [UInt8.toNat_ofNat'] at hlt <;> omega

/-! ## Escapes -/

/-- A backslash before a byte: a byte with a name, or the byte itself where `self` allows it.
Escapes that no writer emits and that stand for something else are left out. -/
def named (table : List (UInt8 × UInt8)) (self : UInt8 → Bool) : Bytes → Option (Bytes × Bytes)
  | [] => none
  | c :: cs =>
    match table.lookup c with
    | some b => some ([b], cs)
    | none => if self c then some ([c], cs) else none

variable {p : Bytes × Bytes}

theorem named_length {table : List (UInt8 × UInt8)} {self : UInt8 → Bool} {input : Bytes}
    (h : named table self input = some p) : p.2.length ≤ input.length := by
  unfold named at h
  split at h
  · cases h
  · split at h
    · cases h
      simp
    · split at h <;> cases h
      simp

/-- Up to three digits of a number below 256. -/
def numbered (base : Nat) (digit : UInt8 → Bool) (input : Bytes) : Option (Bytes × Bytes) :=
  let digits := (input.take 3).takeWhile digit
  let n := digits.foldl (fun n d => base * n + (d.toNat - 48)) 0
  if n < 256 then some ([UInt8.ofNat n], input.drop digits.length) else none

theorem numbered_length {base : Nat} {digit : UInt8 → Bool} {input : Bytes}
    (h : numbered base digit input = some p) : p.2.length ≤ input.length := by
  simp only [numbered] at h
  split at h <;> cases h
  simp

/-- A number where a digit follows the backslash, else a named byte. -/
def escape (base : Nat) (digit : UInt8 → Bool) (table : List (UInt8 × UInt8)) (self : UInt8 → Bool)
    (input : Bytes) : Option (Bytes × Bytes) :=
  if input.head?.any digit then numbered base digit input else named table self input

theorem escape_length {base : Nat} {digit : UInt8 → Bool} {table : List (UInt8 × UInt8)}
    {self : UInt8 → Bool} {input : Bytes}
    (h : escape base digit table self input = some p) : p.2.length ≤ input.length := by
  unfold escape at h
  split at h
  · exact numbered_length h
  · exact named_length h

/-- `\n`, `\r` and `\t`, which all writers but one replace. -/
def controls : List (UInt8 × Bytes) := [(10, utf8 "\\n"), (13, utf8 "\\r"), (9, utf8 "\\t")]

/-- `\b`, `\n`, `\r` and `\t`, which all readers but one know. -/
def controlNames : List (UInt8 × UInt8) := [(98, 8), (110, 10), (114, 13), (116, 9)]

/-! ## The backends

The Go code walks the bytes of a string; each writer is its table of replacements. -/

/-- A writer whose replacements are escapes and whose rule needs no others. -/
theorem stands_table {r : QuoteRule} {table : List (UInt8 × Bytes)}
    (hentry : ∀ p ∈ table, r.Stands p.2 [p.1])
    (hquote : table.lookup r.quote ≠ none) (hescape : table.lookup backslash ≠ none)
    (hraw : ∀ c, table.lookup c = none → r.raw c = true) (s : Bytes) :
    r.Stands (replaceBytes table s) s := by
  have := stands_replaceBytes (g := fun c => [c]) hentry
    (fun c hc => stands_self ?_ ?_ (hraw c hc)) s
  · rwa [List.flatMap_singleton'] at this
  · rintro rfl
    exact hquote hc
  · rintro - rfl
    exact hescape hc

namespace Postgres

def table : List (UInt8 × Bytes) :=
  [(92, utf8 "\\\\"), (39, utf8 "\\\'"), (0, utf8 "\\000")] ++ controls

def quoteString (s : Bytes) : Bytes := utf8 "E\'" ++ replaceBytes table s ++ utf8 "\'"

/-- `E'...'`: octal numbers, named bytes, any other byte itself; `\x` and `\u` are left out. -/
def rule : QuoteRule where
  opening := utf8 "E\'"
  quote := 39
  doubled := true
  escapes := true
  escape := Quoting.escape 8 (fun c => 48 ≤ c && c ≤ 55) ((102, 12) :: controlNames)
    (fun c => c ∉ utf8 "xuU")
  raw _ := true
  escape_length := Quoting.escape_length

theorem stands (s : Bytes) : rule.Stands (replaceBytes table s) s := by
  refine stands_table ?_ (by decide) (by decide) (fun _ _ => rfl) s
  simp only [table, controls, List.cons_append, List.nil_append, List.forall_mem_cons]
  refine ⟨?_, ?_, ?_, ?_, ?_, ?_, nofun⟩ <;> exact stands_escape (by decide) rfl fun _ => rfl

end Postgres

namespace Mariadb

def table : List (UInt8 × Bytes) :=
  [(39, utf8 "\'\'"), (92, utf8 "\\\\"), (0, utf8 "\\0")] ++ controls

def quoteString (s : Bytes) : Bytes := utf8 "\'" ++ replaceBytes table s ++ utf8 "\'"

/-- `'...'` in the default mode: named bytes, any other byte itself; `\%` and `\_`, which keep
their backslash, are left out. -/
def rule : QuoteRule where
  opening := utf8 "\'"
  quote := 39
  doubled := true
  escapes := true
  escape := named ((48, 0) :: (90, 26) :: controlNames) (fun c => c ∉ utf8 "%_")
  raw _ := true
  escape_length := named_length

/-- Under NO_BACKSLASH_ESCAPES a backslash is a byte like others. -/
def noBackslashEscapes : QuoteRule := { rule with escapes := false }

theorem stands (s : Bytes) : rule.Stands (replaceBytes table s) s := by
  refine stands_table ?_ (by decide) (by decide) (fun _ _ => rfl) s
  simp only [table, controls, List.cons_append, List.nil_append, List.forall_mem_cons]
  refine ⟨stands_doubled rfl, ?_, ?_, ?_, ?_, ?_, nofun⟩ <;>
    exact stands_escape (by decide) rfl fun _ => rfl

theorem stands_noBackslashEscapes (s : Bytes) :
    ∃ bs, noBackslashEscapes.Stands (replaceBytes table s) bs := by
  have hself : ∀ u : Bytes, 39 ∉ u → noBackslashEscapes.Stands u u := fun u hu =>
    stands_plain hu nofun fun _ _ => rfl
  refine ⟨_, stands_replaceBytes (g := fun c => if c = 39 then [39] else (table.lookup c).getD [c])
    ?_ (fun c hc => ?_) s⟩
  · simp only [table, controls, List.cons_append, List.nil_append, List.forall_mem_cons]
    exact ⟨stands_doubled rfl, hself _ (by decide), hself _ (by decide), hself _ (by decide),
      hself _ (by decide), hself _ (by decide), nofun⟩
  · have hne : c ≠ 39 := by
      rintro rfl
      exact absurd hc (by decide)
    rw [if_neg hne, hc]
    exact hself [c] (by simpa using hne.symm)

end Mariadb

namespace Clickhouse

def table : List (UInt8 × Bytes) :=
  [(92, utf8 "\\\\"), (39, utf8 "\\\'"), (0, utf8 "\\0")] ++ controls

def quoteString (s : Bytes) : Bytes := utf8 "\'" ++ replaceBytes table s ++ utf8 "\'"

/-- `'...'` with backslash escapes; `\x`, and the bytes that keep their backslash, are left out. -/
def rule : QuoteRule where
  opening := utf8 "\'"
  quote := 39
  doubled := true
  escapes := true
  escape := named ((48, 0) :: (97, 7) :: (102, 12) :: (118, 11) :: controlNames)
    (fun c => c ∈ utf8 "\\\'\"/=")
  raw _ := true
  escape_length := named_length

theorem stands (s : Bytes) : rule.Stands (replaceBytes table s) s := by
  refine stands_table ?_ (by decide) (by decide) (fun _ _ => rfl) s
  simp only [table, controls, List.cons_append, List.nil_append, List.forall_mem_cons]
  refine ⟨?_, ?_, ?_, ?_, ?_, ?_, nofun⟩ <;> exact stands_escape (by decide) rfl fun _ => rfl

end Clickhouse

namespace Lua

/-- `luaStringEscaper`. -/
def table : List (UInt8 × Bytes) :=
  [(92, utf8 "\\\\"), (34, utf8 "\\\"")] ++ controls ++ [(0, utf8 "\\000")]

def quoteString (s : Bytes) : Bytes := utf8 "\"" ++ replaceBytes table s ++ utf8 "\""

/-- `"..."`: decimal numbers and named bytes; a line may not break. -/
def rule : QuoteRule where
  opening := utf8 "\""
  quote := 34
  doubled := false
  escapes := true
  escape := Quoting.escape 10 (fun c => 48 ≤ c && c ≤ 57)
    ((97, 7) :: (102, 12) :: (118, 11) :: controlNames)
    (fun c => c ∈ utf8 "\\\'\"\n")
  raw c := c ≠ 10 && c ≠ 13
  escape_length := Quoting.escape_length

theorem stands (s : Bytes) : rule.Stands (replaceBytes table s) s := by
  refine stands_table ?_ (by decide) (by decide) (fun c hc => ?_) s
  · simp only [table, controls, List.cons_append, List.nil_append, List.forall_mem_cons]
    refine ⟨?_, ?_, ?_, ?_, ?_, ?_, nofun⟩ <;> exact stands_escape (by decide) rfl fun _ => rfl
  · have hn : c ≠ 10 := by
      rintro rfl
      exact absurd hc (by decide)
    have hr : c ≠ 13 := by
      rintro rfl
      exact absurd hc (by decide)
    simp [rule, hn, hr]

end Lua

namespace Meili

/-- The runes of a string as a Go range loop reads them: a byte that starts no valid encoding is one
replacement character. -/
def runesFrom : Nat → Bytes → List Char
  | fuel + 1, b :: bs =>
    match (b :: bs).toByteArray.utf8DecodeChar? 0 with
    | some c => c :: runesFrom fuel ((b :: bs).drop c.utf8Size)
    | none => '\uFFFD' :: runesFrom fuel bs
  | _, _ => []

def runes (s : Bytes) : List Char := runesFrom s.length s

def writeRune (c : Char) : Bytes :=
  if c.toNat = 92 then utf8 "\\\\" else if c.toNat =
    34 then utf8 "\\\"" else String.utf8EncodeChar c

def quoteString (s : Bytes) : Bytes := utf8 "\"" ++ (runes s).flatMap writeRune ++ utf8 "\""

/-- `"..."`: a backslash makes the next byte a plain one. -/
def rule : QuoteRule where
  opening := utf8 "\""
  quote := 34
  doubled := false
  escapes := true
  escape := named [] (fun _ => true)
  raw _ := true
  escape_length := named_length

theorem stands (s : Bytes) :
    rule.Stands ((runes s).flatMap writeRune) ((runes s).flatMap String.utf8EncodeChar) := by
  refine stands_flatMap fun c _ => ?_
  unfold writeRune
  split_ifs with h92 h34
  · have : c = '\\' := Char.toNat_inj.mp h92
    subst this
    exact stands_escape (by decide) rfl fun _ => rfl
  · have : c = Char.ofNat 34 := Char.toNat_inj.mp h34
    subst this
    exact stands_escape (by decide) rfl fun _ => rfl
  · exact stands_plain (fun hb => h34 (toNat_of_mem_utf8EncodeChar hb (by decide)))
      (fun _ hb => h92 (toNat_of_mem_utf8EncodeChar hb (by decide))) fun _ _ => rfl

theorem runesFrom_encode (cs : List Char) :
    ∀ fuel, (cs.flatMap String.utf8EncodeChar).length ≤ fuel →
    runesFrom fuel (cs.flatMap String.utf8EncodeChar) = cs := by
  induction cs with
  | nil =>
    intro fuel _
    cases fuel <;> rfl
  | cons c cs ih =>
    intro fuel hfuel
    rw [List.flatMap_cons] at hfuel ⊢
    have hdecode : (String.utf8EncodeChar c ++ cs.flatMap
      String.utf8EncodeChar).toByteArray.utf8DecodeChar? 0 =
        some c := by
      rw [List.toByteArray_append]
      exact ByteArray.utf8DecodeChar?_utf8EncodeChar_append
    have hdrop : (String.utf8EncodeChar c ++ cs.flatMap String.utf8EncodeChar).drop c.utf8Size =
        cs.flatMap String.utf8EncodeChar := List.drop_left' (String.length_utf8EncodeChar c)
    have hpos := c.utf8Size_pos
    rw [List.length_append, String.length_utf8EncodeChar] at hfuel
    obtain ⟨f, rfl⟩ : ∃ f, fuel = f + 1 := ⟨fuel - 1, by omega⟩
    cases hu : String.utf8EncodeChar c ++ cs.flatMap String.utf8EncodeChar with
    | nil => exact absurd (List.append_eq_nil_iff.mp hu).1 String.utf8EncodeChar_ne_nil
    | cons b bs =>
      rw [hu] at hdecode hdrop
      rw [runesFrom, hdecode]
      dsimp only
      rw [hdrop, ih f (by omega)]

theorem encode_runes_iff (s : Bytes) :
    (runes s).flatMap String.utf8EncodeChar = s ↔ s.toByteArray.IsValidUTF8 := by
  constructor
  · intro h
    exact ⟨runes s, by rw [List.utf8Encode, h]⟩
  · rintro ⟨cs, hcs⟩
    cases List.toByteArray_inj.mp hcs
    rw [runes, runesFrom_encode _ _ le_rfl]

end Meili

/-! ## Reading a literal back -/

/-- For every string and every text after it: a SQL literal is read back to its string, and up to
its end, unless the text goes on with a quote (also for MariaDB without backslash escapes, where
only the end is kept); a Lua literal always is; a Meilisearch literal is when the string is valid
UTF-8. -/
theorem quoteString_read (s k : Bytes) :
    (Postgres.rule.read (Postgres.quoteString s ++ k) = some (s, k) ↔ k.head? ≠ some 39) ∧
    (Mariadb.rule.read (Mariadb.quoteString s ++ k) = some (s, k) ↔ k.head? ≠ some 39) ∧
    ((Mariadb.noBackslashEscapes.read (Mariadb.quoteString s ++ k)).map Prod.snd = some k ↔
      k.head? ≠ some 39) ∧
    (Clickhouse.rule.read (Clickhouse.quoteString s ++ k) = some (s, k) ↔ k.head? ≠ some 39) ∧
    Lua.rule.read (Lua.quoteString s ++ k) = some (s, k) ∧
    (Meili.rule.read (Meili.quoteString s ++ k) = some (s, k) ↔ s.toByteArray.IsValidUTF8) := by
  have hsingle : utf8 "\'" = [39] := by decide
  have hdouble : utf8 "\"" = [34] := by decide
  have hends : ∀ {r : QuoteRule}, r.doubled = true → r.quote = 39 →
    (r.Ends k ↔ k.head? ≠ some 39) :=
    fun hd hq => by simp [Ends, hd, hq]
  have hpostgres := ((Postgres.stands s).read_iff k).trans (hends rfl rfl)
  have hmariadb := ((Mariadb.stands s).read_iff k).trans (hends rfl rfl)
  obtain ⟨bs, hbs⟩ := Mariadb.stands_noBackslashEscapes s
  have hrest := (hbs.rest_iff k).trans (hends rfl rfl)
  have hclickhouse := ((Clickhouse.stands s).read_iff k).trans (hends rfl rfl)
  have hlua := ((Lua.stands s).read k).1 (by intro h; cases h)
  have hmeili := ((Meili.stands s).read k).1 (by intro h; cases h)
  rw [Postgres.quoteString, Mariadb.quoteString, Clickhouse.quoteString, Lua.quoteString,
    Meili.quoteString, hsingle, hdouble]
  simp only [List.append_assoc, List.singleton_append] at *
  refine ⟨hpostgres, hmariadb, hrest, hclickhouse, hlua, ?_⟩
  rw [← Meili.encode_runes_iff]
  constructor
  · intro h
    exact congrArg Prod.fst (Option.some.inj (hmeili.symm.trans h))
  · intro h
    rw [h] at hmeili
    exact hmeili

/-- A single byte 0xFF is read back as the three bytes of the replacement character. -/
theorem meili_quoteString_invalid :
    Meili.quoteString [0xFF] = [34, 0xEF, 0xBF, 0xBD, 34] ∧
      Meili.rule.read (Meili.quoteString [0xFF]) = some ([0xEF, 0xBF, 0xBD], []) := by
  decide

/-! ## Texts

The SQL dialects write valid texts, for which the walk over bytes and one over characters agree. -/

theorem replaceBytes_of_lookup {table : List (UInt8 × Bytes)} {u : Bytes}
    (h : ∀ b ∈ u, table.lookup b = none) :
    replaceBytes table u = u := by
  induction u with
  | nil => rfl
  | cons b bs ih =>
    rw [replaceBytes, List.flatMap_cons, h b (by simp)]
    exact congrArg (b :: ·) (ih fun x hx => h x (by simp [hx]))

/-- A table of ASCII replacements does to the bytes of a text what its escapes do to the
characters. -/
theorem utf8_quoteWith {opening : String} {escape : Char → Option String}
    {table : List (UInt8 × Bytes)} (hentry : ∀ p ∈ table, p.1.toNat < 128 ∧
    table.lookup p.1 = some p.2 ∧
      (escape (Char.ofNat p.1.toNat)).map utf8 = some p.2)
    (hother : ∀ c, (∀ p ∈ table, c.toNat ≠ p.1.toNat) → escape c = none) (s : String) :
    utf8 (Sql.quoteWith opening escape s) = utf8 opening ++ replaceBytes table
      (utf8 s) ++ utf8 "\'" := by
  have hchar : ∀ c, utf8 ((escape c).getD (String.singleton c)) = replaceBytes table
      (String.utf8EncodeChar c) := by
    intro c
    by_cases h : ∃ p ∈ table, c.toNat = p.1.toNat
    · obtain ⟨p, hp, hc⟩ := h
      obtain ⟨hlt, hlookup, htext⟩ := hentry p hp
      rw [← hc, Char.ofNat_toNat] at htext
      obtain ⟨text, hescape, htext⟩ := Option.map_eq_some_iff.mp htext
      have hval : c.val.toNat = p.1.toNat := hc
      have henc : String.utf8EncodeChar c = [p.1] := by
        rw [String.utf8EncodeChar, if_pos (by omega), hval, UInt8.ofNat_toNat]
      simp [hescape, htext, henc, replaceBytes, hlookup]
    · rw [hother c (by simpa using h), replaceBytes_of_lookup fun b hb => ?_]
      · simp [utf8]
      · cases hl : table.lookup b with
        | none => rfl
        | some text =>
          obtain ⟨l₁, l₂, rfl, -⟩ := List.lookup_eq_some_iff.mp hl
          have hlt := (hentry (b, text) (by simp)).1
          exact absurd ⟨(b, text), by simp, toNat_of_mem_utf8EncodeChar hb hlt⟩ h
  simp only [utf8, replaceBytes] at hchar
  simp [Sql.quoteWith, utf8, replaceBytes, List.flatMap_assoc, List.flatMap_map, hchar]

theorem utf8_quoteString (s : String) :
    utf8 (Sql.Postgres.quoteString s) = Postgres.quoteString (utf8 s) ∧
      utf8 (Sql.Mariadb.quoteString s) = Mariadb.quoteString (utf8 s) ∧
      utf8 (Sql.Clickhouse.quoteString s) = Clickhouse.quoteString (utf8 s) := by
  refine ⟨utf8_quoteWith (by decide) (fun c hc => ?_) s, utf8_quoteWith (by decide)
    (fun c hc => ?_) s, utf8_quoteWith (by decide) (fun c hc => ?_) s⟩
  all_goals
    simp [Postgres.table, Mariadb.table, Clickhouse.table, controls] at hc
    simp [Sql.escapeControl, ← Char.toNat_inj, hc]

end GoAtlas.Filter.Quoting
