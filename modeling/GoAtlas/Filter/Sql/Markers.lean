import Mathlib.Data.List.Forall2
import GoAtlas.Filter.Sql.Dialect

/-!
# Bind markers in a clause text

`markers` reads the bind markers off a text, left to right: `?` and `$` with its number. It looks
at every character, inside quotes too, so a text it reads correctly has no stray `?` or `$`. A
tree whose leaves are well formed (`Operand.Good`) reads as its bind slots.
-/

namespace GoAtlas.Filter.Sql

open GoAtlas.Filter

/-! ## Scanning -/

/-- The scan; `some k` while the number of a `$` marker is being read. -/
def scan : Option Nat → List Char → List (Option Nat)
  | none, [] => []
  | some k, [] => [some k]
  | none, c :: cs =>
    if c = '$' then scan (some 0) cs else if c = '?' then none :: scan none cs else scan none cs
  | some k, c :: cs =>
    if c.isDigit then scan (some (10 * k + (c.toNat - '0'.toNat))) cs
    else some k ::
      if c = '$' then scan (some 0) cs else if c = '?' then none :: scan none cs else scan none cs

/-- The markers of a text: `some k` for `$k`, `none` for `?`. -/
def markers (text : String) : List (Option Nat) := scan none text.toList

example : markers "right(\"a\", length($1)) = $12" = [some 1, some 12] := by decide

def NoDigitHead (l : List Char) : Prop := ∀ c ∈ l.head?, c.isDigit = false

theorem NoDigitHead.append {a b : List Char} (ha : NoDigitHead a) (hb : NoDigitHead b) :
    NoDigitHead (a ++ b) := by
  cases a with
  | nil => exact hb
  | cons c cs => exact ha

theorem scan_some {k : Nat} {rest : List Char} (h : NoDigitHead rest) :
    scan (some k) rest = some k :: scan none rest := by
  cases rest with
  | nil => rfl
  | cons c cs =>
    have hc : c.isDigit = false := h c rfl
    simp [scan, hc]

theorem scan_digits {ds rest : List Char} (hd : ∀ c ∈ ds, c.isDigit = true)
    (hr : NoDigitHead rest) (k : Nat) :
    scan (some k) (ds ++ rest) = some (Nat.ofDigitChars 10 ds k) :: scan none rest := by
  induction ds generalizing k with
  | nil => exact scan_some hr
  | cons c cs ih =>
    have hc : c.isDigit = true := hd c (by simp)
    simp only [List.cons_append, scan, hc, if_true]
    rw [ih (fun d hdm => hd d (by simp [hdm]))]
    rfl

/-! ## Reading a text piece by piece -/

def Clean (s : String) : Prop := '$' ∉ s.toList ∧ '?' ∉ s.toList

instance (s : String) : Decidable (Clean s) := inferInstanceAs (Decidable (_ ∧ _))

theorem Clean.append {a b : String} (ha : Clean a) (hb : Clean b) : Clean (a ++ b) := by
  simp only [Clean, String.toList_append, List.mem_append, not_or]
  exact ⟨⟨ha.1, hb.1⟩, ha.2, hb.2⟩

theorem Clean.scan {a : String} (h : Clean a) (rest : List Char) :
    scan none (a.toList ++ rest) = scan none rest := by
  obtain ⟨hd, hq⟩ := h
  generalize a.toList = l at hd hq
  induction l with
  | nil => rfl
  | cons c cs ih =>
    simp only [List.mem_cons, not_or] at hd hq
    simp only [List.cons_append, Sql.scan, Ne.symm hd.1, Ne.symm hq.1, if_false]
    exact ih hd.2 hq.2

/-- The text reads as `ms` wherever it is not followed by a digit. -/
def Reads (s : String) (ms : List (Option Nat)) : Prop :=
  ∀ rest, NoDigitHead rest → scan none (s.toList ++ rest) = ms ++ scan none rest

theorem Reads.markers {s : String} {ms : List (Option Nat)} (h : Reads s ms) : markers s = ms := by
  have := h [] (by simp [NoDigitHead])
  simpa [Sql.markers, scan] using this

theorem Clean.reads {s : String} (h : Clean s) : Reads s [] := fun rest _ => h.scan rest

theorem Clean.reads_append {a b : String} {ms : List (Option Nat)} (ha : Clean a)
    (hb : Reads b ms) : Reads (a ++ b) ms := by
  intro rest hr
  rw [String.toList_append, List.append_assoc, ha.scan, hb rest hr]

theorem Reads.append {a b : String} {ms ns : List (Option Nat)} (ha : Reads a ms)
    (hb : Reads b ns) (hd : NoDigitHead b.toList) : Reads (a ++ b) (ms ++ ns) := by
  intro rest hr
  rw [String.toList_append, List.append_assoc, ha _ (hd.append hr), hb rest hr, List.append_assoc]

/-! ## Replacing markers -/

/-- The scan that replaces markers, `true` while the number of a `$` marker is being read. -/
def fillFrom : Bool → List String → List Char → List Char
  | _, _, [] => []
  | number, lits, c :: cs =>
    if number && c.isDigit then fillFrom true lits cs
    else if c = '$' then (lits.headD "").toList ++ fillFrom true lits.tail cs
    else if c = '?' then (lits.headD "").toList ++ fillFrom false lits.tail cs
    else c :: fillFrom false lits cs

/-- The text with its `k`-th marker, `?` or `$` with its number, replaced by the `k`-th of
`lits`. -/
def fillMarkers (lits : List String) (text : String) : String :=
  String.ofList (fillFrom false lits text.toList)

example : fillMarkers ["3", "4"] "\"x\" IN ($1, $2)" = "\"x\" IN (3, 4)" := by decide

theorem fillFrom_true {lits : List String} {rest : List Char} (h : NoDigitHead rest) :
    fillFrom true lits rest = fillFrom false lits rest := by
  cases rest with
  | nil => rfl
  | cons c cs =>
    have hc : c.isDigit = false := h c rfl
    simp [fillFrom, hc]

theorem fillFrom_digits {ds rest : List Char} (hd : ∀ c ∈ ds, c.isDigit = true)
    (hr : NoDigitHead rest) (lits : List String) :
    fillFrom true lits (ds ++ rest) = fillFrom false lits rest := by
  induction ds with
  | nil => exact fillFrom_true hr
  | cons c cs ih =>
    have hc : c.isDigit = true := hd c (by simp)
    simp only [List.cons_append, fillFrom, hc, Bool.and_self, if_true]
    exact ih fun d hdm => hd d (by simp [hdm])

theorem Clean.fillFrom {a : String} (h : Clean a) (lits : List String) (rest : List Char) :
    fillFrom false lits (a.toList ++ rest) = a.toList ++ fillFrom false lits rest := by
  obtain ⟨hd, hq⟩ := h
  generalize a.toList = l at hd hq
  induction l with
  | nil => rfl
  | cons c cs ih =>
    simp only [List.mem_cons, not_or] at hd hq
    simp only [List.cons_append, Sql.fillFrom, Ne.symm hd.1, Ne.symm hq.1, if_false, Bool.false_and,
      Bool.false_eq_true, ih hd.2 hq.2]

/-! ## Well-formed trees -/

def Backend.marker : Backend → Nat → Option Nat
  | postgres, n => some n
  | mariadb, _ | clickhouse, _ => none

theorem reads_placeholder (lib : GoLib) (b : Backend) (n : Nat) :
    Reads ((b.dialect lib).placeholder n) [b.marker n] := by
  cases b with
  | postgres =>
    intro rest hr
    have hd : ∀ c ∈ Nat.toDigits 10 n, c.isDigit = true := fun c hc =>
      Nat.isDigit_of_mem_toDigits (by decide) (by decide) hc
    have hn : Nat.ofDigitChars 10 (Nat.toDigits 10 n) 0 = n :=
      Nat.ofDigitChars_toDigits (by decide) (by decide)
    have ht : ((Backend.postgres.dialect lib).placeholder n).toList = '$' :: Nat.toDigits 10 n := by
      simp [Backend.dialect, Postgres.dialect]
    rw [ht, List.cons_append, scan, if_pos rfl, scan_digits hd hr, hn]
    rfl
  | mariadb | clickhouse =>
    intro rest _
    simp [Backend.dialect, Mariadb.dialect, Clickhouse.dialect, Backend.marker, scan]

/-! ## Texts woven from pieces and markers -/

def slotMarkers (b : Backend) (bs : List (Value × Nat)) : List (Option Nat) :=
  bs.map (fun p => b.marker p.2)

section Woven

variable {lib : GoLib} {b : Backend} {lit : Value → String}

/-- The text is made of pieces without markers and of the markers of the slots; `out` is the same
pieces around the values of the slots, as `lit` prints them. -/
inductive Woven (lib : GoLib) (b : Backend) (lit : Value → String) :
    List (Value × Nat) → String → String → Prop where
  | piece {s : String} : Clean s → Woven lib b lit [] s s
  | slot (v : Value) (n : Nat) : Woven lib b lit [(v, n)] ((b.dialect lib).placeholder n) (lit v)
  | front {s text out : String} {bs : List (Value × Nat)} :
    Clean s → Woven lib b lit bs text out → Woven lib b lit bs (s ++ text) (s ++ out)
  | append {text out text' out' : String} {bs bs' : List (Value × Nat)} :
    Woven lib b lit bs text out → Woven lib b lit bs' text' out' → NoDigitHead text'.toList →
    Woven lib b lit (bs ++ bs') (text ++ text') (out ++ out')

namespace Woven

variable {text out text' out' : String} {bs bs' : List (Value × Nat)}

section

variable (h : Woven lib b lit bs text out)
include h

theorem reads : Reads text (slotMarkers b bs) := by
  induction h with
  | piece hs => exact hs.reads
  | slot v n => exact reads_placeholder lib b n
  | front hs _ ih => exact hs.reads_append ih
  | append _ _ hd ih ih' =>
    rw [slotMarkers, List.map_append]
    exact ih.append ih' hd

theorem fillFrom (more : List String) {rest : List Char} (hr : NoDigitHead rest) :
    fillFrom false (bs.map (fun p => lit p.1) ++ more) (text.toList ++ rest) =
      out.toList ++ Sql.fillFrom false more rest := by
  induction h generalizing more rest with
  | piece hs => exact hs.fillFrom _ _
  | slot v n =>
    cases b with
    | postgres =>
      have ht : ((Backend.postgres.dialect lib).placeholder n).toList =
          '$' :: Nat.toDigits 10 n := by
        simp [Backend.dialect, Postgres.dialect]
      have hd : ∀ c ∈ Nat.toDigits 10 n, c.isDigit = true := fun c hc =>
        Nat.isDigit_of_mem_toDigits (by decide) (by decide) hc
      rw [ht, List.cons_append, Sql.fillFrom]
      simp [fillFrom_digits hd hr]
    | mariadb | clickhouse =>
      simp [Backend.dialect, Mariadb.dialect, Clickhouse.dialect, Sql.fillFrom]
  | front hs _ ih =>
    rw [String.toList_append, List.append_assoc, hs.fillFrom, ih more hr, String.toList_append,
      List.append_assoc]
  | append _ _ hd ih ih' =>
    rw [String.toList_append, List.append_assoc, List.map_append, List.append_assoc,
      ih _ (hd.append hr), ih' more hr, String.toList_append, List.append_assoc]

theorem fillMarkers :
    fillMarkers (bs.map (fun p => lit p.1)) text = out := by
  have hend : NoDigitHead [] := by simp [NoDigitHead]
  have := h.fillFrom [] hend
  rw [List.append_nil, List.append_nil] at this
  rw [Sql.fillMarkers, this]
  simp [Sql.fillFrom]

theorem sep {sep : String}
    (hs : Clean sep ∧ NoDigitHead sep.toList ∧ sep ≠ "") (h' : Woven lib b lit bs' text' out') :
    Woven lib b lit (bs ++ bs') (text ++ sep ++ text') (out ++ sep ++ out') := by
  obtain ⟨hc, hh, hne⟩ := hs
  rw [String.append_assoc, String.append_assoc]
  refine h.append (h'.front hc) ?_
  rw [String.toList_append]
  cases hl : sep.toList with
  | nil => exact absurd (String.toList_inj.mp hl) hne
  | cons c cs => rw [hl] at hh; exact hh

theorem close {fin : String}
    (hs : Clean fin ∧ NoDigitHead fin.toList) : Woven lib b lit bs (text ++ fin) (out ++ fin) := by
  simpa using h.append (piece hs.1) hs.2

end

theorem intercalate {α : Type} {sep : String} {f f' : α → String} {slots : α → List (Value × Nat)}
    (hs : Clean sep ∧ NoDigitHead sep.toList ∧ sep ≠ "") {l : List α}
    (h : ∀ x ∈ l, Woven lib b lit (slots x) (f x) (f' x)) :
    Woven lib b lit (l.flatMap slots) (sep.intercalate (l.map f)) (sep.intercalate (l.map f')) := by
  induction l with
  | nil => simpa using piece (show Clean "" by decide)
  | cons x xs ih =>
    cases xs with
    | nil => simpa using h x (by simp)
    | cons y ys =>
      have := (h x (by simp)).sep hs (ih fun z hz => h z (by simp [hz]))
      simpa [String.intercalate_cons_cons] using this

end Woven

end Woven

section Good

variable (lib : GoLib) (b : Backend)

/-- The leaves print what they stand for: names and constants without marker characters, bind
slots as the dialect's placeholder. -/
def Operand.Good : Operand → Prop
  | .column _ quoted => Clean quoted
  | .bind n marker _ => marker = (b.dialect lib).placeholder n
  | .null => True
  | .inline _ rendered => Clean rendered
  | .fn1 _ x => x.Good
  | .fn2 _ x y => x.Good ∧ y.Good
  | .fn3 _ x y z => x.Good ∧ y.Good ∧ z.Good

def Atom.Good : Atom → Prop
  | .cmp _ x y => x.Good lib b ∧ y.Good lib b
  | .isNull x | .isNotNull x | .holds x => x.Good lib b
  | .inSet x ms => x.Good lib b ∧ ∀ m ∈ ms, m.Good lib b
  | .both x y => x.Good ∧ y.Good

def Clause.Good : Clause → Prop
  | .atom a => a.Good lib b
  | .anyOf ps => ∀ p ∈ ps, p.Good lib b
  | .logical _ l r => l.Good ∧ r.Good
  | .not c => c.Good

variable {lib b}

theorem Fn.clean (f : Fn) : Clean (f.text ++ "(") := by cases f <;> decide

theorem CmpOp.sep (op : CmpOp) :
    Clean (" " ++ op.text ++ " ") ∧ NoDigitHead (" " ++ op.text ++ " ").toList ∧
      " " ++ op.text ++ " " ≠ "" := by
  refine ⟨by cases op <;> decide, ?_, by cases op <;> decide⟩
  intro c hc
  have : c = ' ' := by simpa [eq_comm] using hc
  rw [this]
  rfl

theorem punctuation_sep {s : String} (hs : s ∈ [", ", " AND ", " OR ", ") AND (", ") OR ("]) :
    Clean s ∧ NoDigitHead s.toList ∧ s ≠ "" := by
  simp only [List.mem_cons, List.not_mem_nil, or_false] at hs
  rcases hs with rfl | rfl | rfl | rfl | rfl <;>
    exact ⟨by decide, by simp [NoDigitHead], by decide⟩

theorem punctuation_close {s : String} (hs : s ∈ [")", " IS NULL", " IS NOT NULL"]) :
    Clean s ∧ NoDigitHead s.toList := by
  simp only [List.mem_cons, List.not_mem_nil, or_false] at hs
  rcases hs with rfl | rfl | rfl <;> exact ⟨by decide, by simp [NoDigitHead]⟩

variable (lit : Value → String)

theorem Operand.Good.woven {o : Operand} (h : o.Good lib b) :
    Woven lib b lit o.binds o.text (o.subst fun _ _ v => .inline v (lit v)).text := by
  induction o with
  | column name quoted => exact .piece h
  | bind n marker v =>
    cases (h : marker = _)
    exact .slot v n
  | null => exact .piece (by decide)
  | inline v rendered => exact .piece h
  | fn1 f x ihx => exact ((ihx h).front f.clean).close (punctuation_close (by simp))
  | fn2 f x y ihx ihy =>
    have := (((ihx h.1).front f.clean).sep (punctuation_sep (s := ", ") (by simp))
      (ihy h.2)).close (punctuation_close (s := ")") (by simp))
    simpa using this
  | fn3 f x y z ihx ihy ihz =>
    have := ((((ihx h.1).front f.clean).sep (punctuation_sep (s := ", ") (by simp))
      (ihy h.2.1)).sep (punctuation_sep (s := ", ") (by simp))
      (ihz h.2.2)).close (punctuation_close (s := ")") (by simp))
    simpa using this

theorem Atom.Good.woven {a : Atom} (h : a.Good lib b) :
    Woven lib b lit a.binds a.text (a.subst fun _ _ v => .inline v (lit v)).text := by
  induction a with
  | cmp op x y =>
    have := (h.1.woven lit).sep op.sep (h.2.woven lit)
    simpa [String.append_assoc] using this
  | isNull x => exact (Operand.Good.woven lit h).close (punctuation_close (by simp))
  | isNotNull x => exact (Operand.Good.woven lit h).close (punctuation_close (by simp))
  | inSet x ms =>
    have hms := Woven.intercalate (punctuation_sep (s := ", ") (by simp))
      (fun m hm => (h.2 m hm).woven lit)
    have hin : Clean " IN (" ∧ NoDigitHead " IN (".toList ∧ " IN (" ≠ "" :=
      ⟨by decide, by simp [NoDigitHead], by decide⟩
    have := ((h.1.woven lit).sep hin hms).close (punctuation_close (s := ")") (by simp))
    simpa [Function.comp_def] using this
  | holds x => exact Operand.Good.woven lit h
  | both x y ihx ihy =>
    have := (((ihx h.1).front (show Clean "(" by decide)).sep
      (punctuation_sep (s := " AND ") (by simp)) (ihy h.2)).close
      (punctuation_close (s := ")") (by simp))
    simpa using this

theorem Clause.Good.woven {c : Clause} (h : c.Good lib b) :
    Woven lib b lit c.binds c.text (c.subst fun _ _ v => .inline v (lit v)).text := by
  induction c with
  | atom a => exact Atom.Good.woven lit h
  | anyOf ps =>
    have hp := fun p (hp : p ∈ ps) =>
      ((Atom.Good.woven lit (h p hp)).front (show Clean "(" by decide)).close
        (punctuation_close (s := ")") (by simp))
    have := ((Woven.intercalate (punctuation_sep (s := " OR ") (by simp)) hp).front
      (show Clean "(" by decide)).close (punctuation_close (s := ")") (by simp))
    simpa [Function.comp_def] using this
  | logical c l r ihl ihr =>
    have hs : Clean (") " ++ c.text ++ " (") ∧ NoDigitHead (") " ++ c.text ++ " (").toList ∧
        ") " ++ c.text ++ " (" ≠ "" := by
      cases c with
      | and => exact punctuation_sep (s := ") AND (") (by simp)
      | or => exact punctuation_sep (s := ") OR (") (by simp)
    have := (((ihl h.1).front (show Clean "(" by decide)).sep hs (ihr h.2)).close
      (punctuation_close (s := ")") (by simp))
    simpa [String.append_assoc] using this
  | not c ih =>
    exact ((ih h).front (show Clean "NOT (" by decide)).close (punctuation_close (by simp))

end Good

end GoAtlas.Filter.Sql
