import GoAtlas.Filter.RegexScan

/-!
# What the scan for anchors reads, and what RE2 reads

`regexp/syntax` with the Perl flags, as far as it decides where a unit of a pattern ends and whether
`m` is on: escapes, quotes, classes, group introducers. Each reader gives what it leaves over.
Names, ranges, counts and repetitions are not checked, so more is read here than RE2 accepts. The
scan agrees with this reading on every class but one kind: it takes `[:` for the opening of a named
class at any place, RE2 only where a member begins, and not where `[` is the upper end of a range.
-/

namespace GoAtlas.Filter.Regexanchor

/-! ## Escapes -/

def isOctal (c : Char) : Bool := '0' ≤ c && c ≤ '7'

def isHex (c : Char) : Bool := c.isDigit || ('a' ≤ c && c ≤ 'f') || ('A' ≤ c && c ≤ 'F')

def isWord (c : Char) : Bool := c.isAlphanum || c = '_'

/-- The names of Unicode classes, with the separators their lookup ignores and the `^` of a
negation. -/
def isClassName (c : Char) : Bool := c.isAlphanum || c ∈ ['_', '-', ' ', '^']

def upTo (close : Char) (p : Char → Bool) : List Char → Option (List Char)
  | [] => none
  | c :: l => if c = close then some l else if p c then upTo close p l else none

def upTo1 (close : Char) (p : Char → Bool) : List Char → Option (List Char)
  | [] => none
  | c :: l => if p c then upTo close p l else none

def octals : Nat → List Char → List Char
  | n + 1, c :: l => if isOctal c then octals n l else c :: l
  | _, l => l

/-- After `\x`: digits in braces, or two. -/
def hexEscape : List Char → Option (List Char)
  | '{' :: l => upTo1 '}' isHex l
  | a :: b :: l => if isHex a && isHex b then some l else none
  | _ => none

/-- `parseEscape`, after the backslash. -/
def charEscape : List Char → Option (List Char)
  | [] => none
  | c :: l =>
    if c = '0' then some (octals 2 l)
    -- a single digit would be a backreference
    else if isOctal c then if l.head?.any isOctal then some (octals 2 l) else none
    else if c = 'x' then hexEscape l
    else if c ∈ ['a', 'f', 'n', 'r', 't', 'v'] then some l
    else if c.toNat < 128 && !c.isAlphanum then some l
    else none

/-- `parseUnicodeClass`, after `\p` or `\P`. -/
def unicodeClass : List Char → Option (List Char)
  | [] => none
  | c :: l => if c = '{' then upTo '}' isClassName l else if c.isAlpha then some l else none

def setEscape : List Char → Option (List Char × Bool)
  | [] => none
  | c :: l =>
    if c = 'p' ∨ c = 'P' then (unicodeClass l).map (·, false)
    else if c ∈ ['d', 'D', 's', 'S', 'w', 'W'] then some (l, false)
    else (charEscape (c :: l)).map (·, true)

/-- An escape outside a class, after the backslash; quotes apart. -/
def patternEscape : List Char → Option (List Char)
  | [] => none
  | c :: l => if c ∈ ['A', 'b', 'B', 'z'] then some l else (setEscape (c :: l)).map (·.1)

/-! ## Classes -/

/-- `parseClassChar`. -/
def classChar : List Char → Option (List Char)
  | [] => none
  | c :: l => if c = '\\' then charEscape l else some l

/-- The text begins with `[:` and has a `:]` later. -/
def opensNamed (l : List Char) : Bool :=
  l.head? = some '[' && l.tail.head? = some ':' && (cutAfter ':' ']' l.tail.tail).isSome

/-- What follows the lower end of a range: the upper end, or nothing. The flag tells that the upper
end looks like the opening of a named class. -/
def rangeEnd : List Char → Option (List Char × Bool)
  | '-' :: c :: l =>
    if c = ']' then some ('-' :: c :: l, false) else (classChar (c :: l)).map
      (·, opensNamed (c :: l))
  | l => some (l, false)

def classItem (l : List Char) : Option (List Char × Bool) :=
  if opensNamed l then (cutAfter ':' ']' l.tail.tail).map (·.2, false)
  else if l.head? = some '\\' then
    (setEscape l.tail).bind fun e => if e.2 then rangeEnd e.1 else some (e.1, false)
  else (classChar l).bind rangeEnd

/-- The members of a class through its closing bracket; one in front of all others is a member. -/
def classItems : Nat → Bool → List Char → Option (List Char × Bool)
  | 0, _, _ => none
  | n + 1, first, l =>
    if l.head? = some ']' ∧ first = false then some (l.tail, false)
    else (classItem l).bind fun i => (classItems n false i.1).map fun r => (r.1, i.2 || r.2)

def classRest (l : List Char) : Option (List Char × Bool) :=
  classItems l.length true (if l.head? = some '^' then l.tail else l)

/-! ## Groups -/

/-- `parsePerlFlags`, after `(?` and where no name follows: the `m` flag, and whether a group
opens. -/
def flagGroup (set seen ml : Bool) : List Char → Option (List Char × Bool × Bool)
  | [] => none
  | c :: l =>
    if c = 'm' then flagGroup set true set l
    else if c ∈ ['i', 's', 'U'] then flagGroup set true ml l
    else if c = '-' then if set then flagGroup false false ml l else none
    -- `-` with no flag behind it is refused
    else if c = ':' then if set || seen then some (l, ml, true) else none
    else if c = ')' then if set || seen then some (l, ml, false) else none
    else none

def groupRest (ml : Bool) : List Char → Option (List Char × Bool × Bool)
  | '?' :: 'P' :: '<' :: l => (upTo1 '>' isWord l).map (·, ml, true)
  | '?' :: '<' :: l => (upTo1 '>' isWord l).map (·, ml, true)
  | '?' :: l => flagGroup true false ml l
  | l => some (l, ml, true)

/-! ## Patterns -/

inductive Piece where
  | char (c : Char)
  | escape (text : List Char)
  | quote (text : List Char)
  /-- A class, and whether a range in it ends in what looks like the opening of a named class. -/
  | cls (text : List Char) (misread : Bool)
  | introducer (text : List Char)
  | close
  /-- A `$`, and whether `m` is on where it stands. -/
  | dollar (multiLine : Bool)
  deriving DecidableEq, Repr

namespace Piece

def source : Piece → List Char
  | char c => [c]
  | escape text | quote text | cls text _ | introducer text => text
  | close => [')']
  | dollar _ => ['$']

/-- What is to become of a piece: `$` without `m` is end of text. -/
def anchored : Piece → List Char
  | dollar false => ['\\', 'z']
  | p => p.source

def misread : Piece → Bool
  | cls _ misread => misread
  | _ => false

end Piece

def before (l rest : List Char) : List Char := l.take (l.length - rest.length)

structure Read where
  piece : Piece
  rest : List Char
  multiLine : Bool
  /-- The states to restore at each `)`. -/
  scopes : List Bool

def next (l : List Char) (ml : Bool) (scopes : List Bool) : Option Read :=
  match l with
  | [] => none
  | '\\' :: 'Q' :: rest =>
    match cutAfter '\\' 'E' rest with
    | none => some ⟨.quote l, [], ml, scopes⟩
    | some (_, after) => some ⟨.quote (before l after), after, ml, scopes⟩
  | '\\' :: rest => (patternEscape rest).map fun r => ⟨.escape (before l r), r, ml, scopes⟩
  | '[' :: rest => (classRest rest).map fun r => ⟨.cls (before l r.1) r.2, r.1, ml, scopes⟩
  | '(' :: rest =>
    (groupRest ml rest).map fun g =>
      ⟨.introducer (before l g.1), g.1, g.2.1, if g.2.2 then ml :: scopes else scopes⟩
  | ')' :: rest =>
    match scopes with
    | [] => none
    | outer :: scopes => some ⟨.close, rest, outer, scopes⟩
  | '$' :: rest => some ⟨.dollar ml, rest, ml, scopes⟩
  | c :: rest => some ⟨.char c, rest, ml, scopes⟩

/-- The pieces of a pattern; a group left open is refused. -/
def piecesFrom : Nat → List Char → Bool → List Bool → Option (List Piece)
  | _, [], _, scopes => if scopes = [] then some [] else none
  | 0, _ :: _, _, _ => none
  | n + 1, c :: l, ml, scopes =>
    (next (c :: l) ml scopes).bind fun r => (piecesFrom n r.rest r.multiLine r.scopes).map
      (r.piece :: ·)

def pieces (pattern : String) : Option (List Piece) :=
  piecesFrom pattern.toList.length pattern.toList false []

example : (pieces "(?m:a$)\\x{41}[^]$[:alpha:]]$").map (·.flatMap Piece.anchored) =
    some "(?m:a$)\\x{41}[^]$[:alpha:]]\\z".toList := by decide

/-! ## Characters the scan passes alone -/

/-- Passed alone, in a class or outside. -/
def Inert (c : Char) : Prop := c ∉ ['\\', '[', ']', '(', ')', '$']

instance (c : Char) : Decidable (Inert c) := inferInstanceAs (Decidable (c ∉ _))

/-- Only such characters were passed. -/
def Passes (l rest : List Char) : Prop := ∃ cs, l = cs ++ rest ∧ ∀ c ∈ cs, Inert c

section Passes

variable {l rest after : List Char} {c close : Char} {p : Char → Bool} {ml : Bool}
    {scopes : List Bool}

theorem Inert.plain (h : Inert c) : Plain c := by
  intro hmem
  apply h
  simp only [List.mem_cons, List.not_mem_nil, or_false] at hmem ⊢
  tauto

theorem Inert.single (h : Inert c) (l : List Char) : Single l c := by
  simp only [Inert, List.mem_cons, List.not_mem_nil, or_false, not_or] at h
  exact ⟨h.1, h.2.2.1, fun hc => absurd hc h.2.1⟩

theorem inert_of (hp : ['\\', '[', ']', '(', ')', '$'].all (fun c => !p c) = true)
    (h : p c = true) : Inert c := by
  intro hmem
  have hno := List.all_eq_true.mp hp c hmem
  rw [h] at hno
  cases hno

theorem Passes.refl (l : List Char) : Passes l l := ⟨[], rfl, by simp⟩

theorem Passes.cons (hc : Inert c) (h : Passes l rest) : Passes (c :: l) rest := by
  obtain ⟨cs, rfl, hcs⟩ := h
  refine ⟨c :: cs, rfl, ?_⟩
  intro d hd
  rcases List.mem_cons.mp hd with rfl | hd
  · exact hc
  · exact hcs d hd

theorem Passes.scan_eq (h : Passes l rest) :
    ∃ cs, l = cs ++ rest ∧ scan l ml scopes = cs ++ scan rest ml scopes := by
  obtain ⟨cs, rfl, hcs⟩ := h
  refine ⟨cs, rfl, ?_⟩
  induction cs with
  | nil => rfl
  | cons c cs ih =>
    rw [List.cons_append, scan_plain (hcs c List.mem_cons_self).plain,
      ih fun d hd => hcs d (List.mem_cons_of_mem c hd)]
    rfl

theorem Passes.members_eq (h : Passes l rest) : (members l).2 = (members rest).2 := by
  obtain ⟨cs, rfl, hcs⟩ := h
  induction cs with
  | nil => rfl
  | cons c cs ih =>
    rw [List.cons_append, members_single ((hcs c List.mem_cons_self).single _)]
    exact ih fun d hd => hcs d (List.mem_cons_of_mem c hd)

theorem upTo_passes (hclose : Inert close) (hp : ∀ c, p c = true → Inert c)
    (h : upTo close p l = some rest) :
    Passes l rest := by
  induction l with
  | nil => cases h
  | cons c l ih =>
    unfold upTo at h
    split at h
    · rename_i hc
      cases h
      exact .cons (hc ▸ hclose) (.refl _)
    · split at h
      · rename_i hc
        exact .cons (hp c hc) (ih h)
      · cases h

theorem upTo1_passes (hclose : Inert close) (hp : ∀ c, p c = true → Inert c)
    (h : upTo1 close p l = some rest) :
    Passes l rest := by
  cases l with
  | nil => cases h
  | cons c l =>
    rw [upTo1] at h
    split at h
    · rename_i hc
      exact .cons (hp c hc) (upTo_passes hclose hp h)
    · cases h

theorem octals_passes (n : Nat) (l : List Char) : Passes l (octals n l) := by
  induction n generalizing l with
  | zero => exact .refl l
  | succ n ih =>
    cases l with
    | nil => exact .refl []
    | cons c l =>
      unfold octals
      split
      · rename_i hc
        exact .cons (inert_of (by decide) hc) (ih l)
      · exact .refl _

theorem hexEscape_passes (h : hexEscape l = some rest) : Passes l rest := by
  unfold hexEscape at h
  split at h
  · exact .cons (by decide) (upTo1_passes (by decide) (fun _ => inert_of (by decide)) h)
  · split at h
    · rename_i hab
      cases h
      rw [Bool.and_eq_true] at hab
      exact .cons (inert_of (by decide) hab.1) (.cons (inert_of (by decide) hab.2) (.refl _))
    · cases h
  · cases h

/-- An escape is a character that is not `Q`, and characters passed alone. -/
def PassesEscape (l rest : List Char) : Prop := ∃ c t, l = c :: t ∧ c ≠ 'Q' ∧ Passes t rest

theorem charEscape_passes (h : charEscape l = some rest) : PassesEscape l rest := by
  cases l with
  | nil => cases h
  | cons c l =>
    have hQ : c ≠ 'Q' := by
      rintro rfl
      cases h
    refine ⟨c, l, rfl, hQ, ?_⟩
    rw [charEscape] at h
    split at h
    · cases h
      exact octals_passes 2 l
    split at h
    · split at h
      · cases h
        exact octals_passes 2 l
      · cases h
    split at h
    · exact hexEscape_passes h
    split at h
    · cases h
      exact .refl _
    split at h
    · cases h
      exact .refl _
    · cases h

theorem unicodeClass_passes (h : unicodeClass l = some rest) : Passes l rest := by
  cases l with
  | nil => cases h
  | cons c l =>
    rw [unicodeClass] at h
    split at h
    · rename_i hc
      exact .cons (hc ▸ by decide) (upTo_passes (by decide) (fun _ => inert_of (by decide)) h)
    · split at h
      · rename_i hc
        cases h
        exact .cons (inert_of (by decide) hc) (.refl _)
      · cases h

theorem setEscape_passes {b : Bool} (h : setEscape l = some (rest, b)) : PassesEscape l rest := by
  cases l with
  | nil => cases h
  | cons c l =>
    rw [setEscape] at h
    split at h
    · rename_i hc
      obtain ⟨r, hr, heq⟩ := Option.map_eq_some_iff.mp h
      cases heq
      refine ⟨c, l, rfl, ?_, unicodeClass_passes hr⟩
      rintro rfl
      revert hc
      decide
    · split at h
      · rename_i hc
        cases h
        refine ⟨c, _, rfl, ?_, .refl _⟩
        rintro rfl
        revert hc
        decide
      · obtain ⟨r, hr, heq⟩ := Option.map_eq_some_iff.mp h
        cases heq
        exact charEscape_passes hr

theorem patternEscape_passes (h : patternEscape l = some rest) : PassesEscape l rest := by
  cases l with
  | nil => cases h
  | cons c l =>
    rw [patternEscape] at h
    split at h
    · rename_i hc
      cases h
      refine ⟨c, _, rfl, ?_, .refl _⟩
      rintro rfl
      revert hc
      decide
    · obtain ⟨⟨r, b⟩, hr, heq⟩ := Option.map_eq_some_iff.mp h
      cases heq
      exact setEscape_passes hr

end Passes

/-! ## Classes end alike -/

section Classes

variable {l rest : List Char} {c : Char}

theorem PassesEscape.members_eq (h : PassesEscape l rest) :
    (members ('\\' :: l)).2 = (members rest).2 := by
  obtain ⟨c, t, rfl, -, ht⟩ := h
  rw [members_escape]
  exact ht.members_eq

theorem single_of_not_opensNamed (hesc : c ≠ '\\') (hclose : c ≠ ']')
    (h : opensNamed (c :: l) = false) : Single l c := by
  refine ⟨hesc, hclose, ?_⟩
  rintro rfl hhead
  simpa [opensNamed, hhead] using h

theorem classChar_members (hclose : c ≠ ']') (hnamed : opensNamed (c :: l) = false)
    (h : classChar (c :: l) = some rest) : (members (c :: l)).2 = (members rest).2 := by
  rw [classChar] at h
  split at h
  · rename_i hesc
    subst hesc
    exact (charEscape_passes h).members_eq
  · rename_i hesc
    cases h
    rw [members_single (single_of_not_opensNamed hesc hclose hnamed)]

theorem rangeEnd_members (h : rangeEnd l = some (rest, false)) :
    (members l).2 = (members rest).2 := by
  unfold rangeEnd at h
  split at h
  · rename_i c l
    split at h
    · cases h
      rfl
    · rename_i hclose
      obtain ⟨r, hr, heq⟩ := Option.map_eq_some_iff.mp h
      obtain ⟨rfl, hnamed⟩ := Prod.mk.inj heq
      have hdash : Inert '-' := by decide
      rw [members_single (hdash.single _)]
      exact classChar_members hclose hnamed hr
  · cases h
    rfl

theorem classItem_members (hclose : l.head? ≠ some ']') (h : classItem l = some (rest, false)) :
    (members l).2 = (members rest).2 := by
  unfold classItem at h
  split at h
  · -- a named class
    rename_i hnamed
    obtain ⟨⟨passed, after⟩, hcut, heq⟩ := Option.map_eq_some_iff.mp h
    cases heq
    simp only [opensNamed, Bool.and_eq_true, decide_eq_true_eq] at hnamed
    obtain ⟨t, rfl⟩ := List.head?_eq_some_iff.mp hnamed.1.1
    obtain ⟨t, rfl⟩ := List.head?_eq_some_iff.mp hnamed.1.2
    have hcut : cutAfter ':' ']' t = some (passed, after) := hcut
    rw [members_named hcut]
  rename_i hnamed
  rw [Bool.not_eq_true] at hnamed
  split at h
  · -- an escape, which may begin a range
    rename_i hesc
    obtain ⟨t, rfl⟩ := List.head?_eq_some_iff.mp hesc
    obtain ⟨⟨r, b⟩, hr, hrange⟩ := Option.bind_eq_some_iff.mp h
    have hr : setEscape t = some (r, b) := hr
    rw [(setEscape_passes hr).members_eq]
    cases b with
    | true => exact rangeEnd_members hrange
    | false =>
      cases hrange
      rfl
  · obtain ⟨r, hr, hrange⟩ := Option.bind_eq_some_iff.mp h
    cases l with
    | nil => cases hr
    | cons c l =>
      rw [classChar_members (fun hc => hclose (congrArg some hc)) hnamed hr]
      exact rangeEnd_members hrange

theorem classItem_members_bracket (h : classItem (']' :: l) = some (rest, false)) :
    (members l).2 = (members rest).2 :=
  rangeEnd_members h

theorem classItems_cases {n : Nat} {first b : Bool}
    (h : classItems (n + 1) first l = some (rest, b)) :
    (l = ']' :: rest ∧ first = false ∧ b = false) ∨
      ∃ r c d, ¬(l.head? = some ']' ∧ first = false) ∧ classItem l = some (r, c) ∧
        classItems n false r = some (rest, d) ∧
        b = (c || d) := by
  unfold classItems at h
  split at h
  · rename_i hclose
    obtain ⟨t, rfl⟩ := List.head?_eq_some_iff.mp hclose.1
    cases h
    exact .inl ⟨rfl, hclose.2, rfl⟩
  · rename_i hclose
    obtain ⟨⟨r, c⟩, hr, hitems⟩ := Option.bind_eq_some_iff.mp h
    obtain ⟨⟨r', d⟩, hr', heq⟩ := Option.map_eq_some_iff.mp hitems
    cases heq
    exact .inr ⟨r, c, d, hclose, hr, hr', rfl⟩

theorem classItems_members {n : Nat} (h : classItems n false l = some (rest, false)) :
    (members l).2 = rest := by
  induction n generalizing l with
  | zero => cases h
  | succ n ih =>
    obtain ⟨rfl, -, -⟩ | ⟨r, c, d, hclose, hr, hrest, hflags⟩ := classItems_cases h
    · rfl
    · obtain ⟨rfl, rfl⟩ := Bool.or_eq_false_iff.mp hflags.symm
      rw [classItem_members (fun hc => hclose ⟨hc, rfl⟩) hr]
      exact ih hrest

theorem classItems_first {n : Nat} (h : classItems n true l = some (rest, false)) :
    (members (if l.head? = some ']' then l.tail else l)).2 = rest := by
  cases n with
  | zero => cases h
  | succ n =>
    obtain ⟨-, hfirst, -⟩ | ⟨r, c, d, -, hr, hrest, hflags⟩ := classItems_cases h
    · cases hfirst
    · obtain ⟨rfl, rfl⟩ := Bool.or_eq_false_iff.mp hflags.symm
      rw [← classItems_members hrest]
      split
      · rename_i hclose
        obtain ⟨t, rfl⟩ := List.head?_eq_some_iff.mp hclose
        exact classItem_members_bracket hr
      · rename_i hclose
        exact classItem_members hclose hr

theorem classRest_classEnd (h : classRest l = some (rest, false)) : (classEnd l).2 = rest := by
  unfold classRest at h
  have hend := classItems_first h
  rw [classEnd_eq, ← hend]
  unfold opening
  by_cases hcaret : l.head? = some '^'
  · obtain ⟨t, rfl⟩ := List.head?_eq_some_iff.mp hcaret
    simp only [List.head?_cons, if_true, List.tail_cons, Nat.add_comm 1, List.drop_succ_cons,
      List.drop_zero]
    split
    · rw [List.drop_one]
    · rfl
  · simp only [if_neg hcaret, List.drop_zero, Nat.zero_add]
    split
    · rw [List.drop_one]
    · rfl

end Classes

/-! ## What a class leaves over -/

section Suffix

variable {l rest : List Char} {b : Bool}

theorem Passes.suffix (h : Passes l rest) : rest <:+ l := by
  obtain ⟨cs, rfl, -⟩ := h
  exact List.suffix_append cs rest

theorem PassesEscape.suffix (h : PassesEscape l rest) : rest <:+ l := by
  obtain ⟨c, t, rfl, -, ht⟩ := h
  exact ht.suffix.trans (List.suffix_cons c t)

theorem classChar_suffix (h : classChar l = some rest) : rest <:+ l := by
  cases l with
  | nil => cases h
  | cons c l =>
    rw [classChar] at h
    split at h
    · exact (charEscape_passes h).suffix.trans (List.suffix_cons c l)
    · cases h
      exact List.suffix_cons c _

theorem rangeEnd_suffix (h : rangeEnd l = some (rest, b)) : rest <:+ l := by
  unfold rangeEnd at h
  split at h
  · split at h
    · cases h
      exact List.suffix_rfl
    · obtain ⟨r, hr, heq⟩ := Option.map_eq_some_iff.mp h
      cases heq
      exact (classChar_suffix hr).trans (List.suffix_cons _ _)
  · cases h
    exact List.suffix_rfl

theorem classItem_suffix (h : classItem l = some (rest, b)) : rest <:+ l := by
  unfold classItem at h
  split at h
  · obtain ⟨⟨passed, after⟩, hcut, heq⟩ := Option.map_eq_some_iff.mp h
    cases heq
    have hafter : after <:+ l.tail.tail := ⟨passed, (cutAfter_eq hcut).symm⟩
    exact hafter.trans ((List.tail_suffix _).trans (List.tail_suffix _))
  split at h
  · obtain ⟨⟨r, escaped⟩, hr, hrange⟩ := Option.bind_eq_some_iff.mp h
    have hescape := (setEscape_passes hr).suffix.trans (List.tail_suffix l)
    cases escaped with
    | true => exact (rangeEnd_suffix hrange).trans hescape
    | false =>
      cases hrange
      exact hescape
  · obtain ⟨r, hr, hrange⟩ := Option.bind_eq_some_iff.mp h
    exact (rangeEnd_suffix hrange).trans (classChar_suffix hr)

theorem classItems_suffix {n : Nat} {first : Bool} (h : classItems n first l = some (rest, b)) :
    rest <:+ l := by
  induction n generalizing l first b with
  | zero => cases h
  | succ n ih =>
    obtain ⟨rfl, -, -⟩ | ⟨r, c, d, -, hr, hrest, -⟩ := classItems_cases h
    · exact List.suffix_cons _ _
    · exact (ih hrest).trans (classItem_suffix hr)

theorem classRest_suffix (h : classRest l = some (rest, b)) : rest <:+ l := by
  have hitems := classItems_suffix h
  split at hitems
  · exact hitems.trans (List.tail_suffix l)
  · exact hitems

end Suffix

/-! ## Pieces are read alike -/

section Pieces

variable {l rest : List Char} {ml ml' opens : Bool} {scopes : List Bool}

theorem before_append (front rest : List Char) : before (front ++ rest) rest = front := by
  unfold before
  rw [List.length_append, Nat.add_sub_cancel, List.take_left]

theorem flagGroup_groupFlags {set seen : Bool}
    (h : flagGroup set seen ml l = some (rest, ml', opens)) :
    groupFlags set ml l = ⟨before l rest, rest, ml', opens⟩ := by
  have hfields : (groupFlags set ml l).rest = rest ∧ (groupFlags set ml l).multiLine = ml' ∧
      (groupFlags set ml l).opensScope = opens := by
    induction l generalizing set seen ml with
    | nil => cases h
    | cons c l ih =>
      unfold flagGroup at h
      split at h
      · rename_i hc
        subst hc
        exact ih h
      split at h
      · rename_i hc
        simp only [List.mem_cons, List.not_mem_nil, or_false] at hc
        obtain rfl | rfl | rfl := hc
        · exact ih h
        · exact ih h
        · exact ih h
      split at h
      · rename_i hc
        subst hc
        split at h
        · exact ih h
        · cases h
      split at h
      · rename_i hc
        subst hc
        split at h
        · cases h
          exact ⟨rfl, rfl, rfl⟩
        · cases h
      split at h
      · rename_i hc
        subst hc
        split at h
        · cases h
          exact ⟨rfl, rfl, rfl⟩
        · cases h
      · cases h
  obtain ⟨rfl, rfl, rfl⟩ := hfields
  have happend := groupFlags_append set ml l
  have hbefore := before_append (groupFlags set ml l).intro (groupFlags set ml l).rest
  rw [happend] at hbefore
  rw [hbefore]

theorem scan_named {t : List Char} (hstart : groupStart ('?' :: t) ml = ⟨['?'], t, ml, true⟩)
    (h : Passes t rest) :
    ∃ cs, '?' :: t = cs ++ rest ∧ scan ('(' :: '?' :: t) ml scopes =
      '(' :: cs ++ scan rest ml (ml :: scopes) := by
  obtain ⟨cs, rfl, hscan⟩ := h.scan_eq
  refine ⟨'?' :: cs, rfl, ?_⟩
  rw [scan_group, hstart]
  exact congrArg (fun t => '(' :: '?' :: t) hscan

/-- An introducer is copied, and the `m` flag and the scopes become the grammar's. -/
theorem groupRest_scan (h : groupRest ml l = some (rest, ml', opens)) :
    ∃ cs, l = cs ++ rest ∧
      scan ('(' :: l) ml scopes =
        '(' :: cs ++ scan rest ml' (if opens then ml :: scopes else scopes) := by
  have hname : ∀ {t r}, upTo1 '>' isWord t = some r → Passes t r := fun ht =>
    upTo1_passes (by decide) (fun _ => inert_of (by decide)) ht
  revert h
  fun_cases groupRest ml l with
  | case1 l =>
    intro h
    obtain ⟨r, hr, heq⟩ := Option.map_eq_some_iff.mp h
    cases heq
    exact scan_named rfl (.cons (by decide) (.cons (by decide) (hname hr)))
  | case2 l =>
    intro h
    obtain ⟨r, hr, heq⟩ := Option.map_eq_some_iff.mp h
    cases heq
    exact scan_named rfl (.cons (by decide) (hname hr))
  | case3 l hP hname =>
    intro h
    have hflags := flagGroup_groupFlags h
    have happend := groupFlags_append true ml l
    rw [hflags] at happend
    refine ⟨'?' :: before l rest, congrArg ('?' :: ·) happend.symm, ?_⟩
    rw [scan_group, groupStart_flags, hflags]
    · intro hhead
      exact hname l.tail (List.cons_head?_tail hhead).symm
    · intro hhead hhead'
      exact hP l.tail.tail (by rw [List.cons_head?_tail hhead', List.cons_head?_tail hhead])
  | case4 _ _ _ hflags =>
    intro h
    cases h
    refine ⟨[], rfl, ?_⟩
    rw [scan_group, groupStart_plain]
    · intro hhead
      exact hflags l.tail (List.cons_head?_tail hhead).symm

/-- What the scan makes of a piece it reads alike: the piece as it is to become, in the state the
grammar leaves. -/
structure Follows (l : List Char) (ml : Bool) (scopes : List Bool) (r : Read) : Prop where
  source : l = r.piece.source ++ r.rest
  scan : r.piece.misread = false → scan l ml scopes =
    r.piece.anchored ++ scan r.rest r.multiLine r.scopes

theorem Follows.copied (front : List Char) {piece : Piece} {scopes' : List Bool}
    (hsource : piece.source = before l rest) (hanchored : piece.anchored = piece.source)
    (hl : l = front ++ rest) (hscan : piece.misread = false →
      Regexanchor.scan l ml scopes = front ++ Regexanchor.scan rest ml' scopes') :
    Follows l ml scopes ⟨piece, rest, ml', scopes'⟩ := by
  have hfront : piece.source = front := by rw [hsource, hl, before_append]
  refine ⟨?_, fun hr => ?_⟩
  · rw [hfront, hl]
  · rw [hanchored, hfront, hscan hr]

theorem next_follows {r : Read} (h : next l ml scopes = some r) : Follows l ml scopes r := by
  unfold next at h
  split at h
  · cases h
  · -- a quote, closed or not
    rename_i rest
    cases hcut : cutAfter '\\' 'E' rest with
    | none =>
      simp only [hcut] at h
      cases h
      refine ⟨(List.append_nil _).symm, fun _ => ?_⟩
      rw [scan_openQuote hcut, scan_nil, List.append_nil]
      rfl
    | some p =>
      obtain ⟨passed, after⟩ := p
      simp only [hcut] at h
      cases h
      refine .copied ('\\' :: 'Q' :: passed) rfl rfl ?_ fun _ => scan_quote hcut
      rw [cutAfter_eq hcut]
      rfl
  · obtain ⟨t, ht, rfl⟩ := Option.map_eq_some_iff.mp h
    obtain ⟨c, u, rfl, hc, hu⟩ := patternEscape_passes ht
    obtain ⟨cs, rfl, hscan⟩ := hu.scan_eq
    refine .copied ('\\' :: c :: cs) rfl rfl rfl fun _ => ?_
    rw [scan_escape hc, hscan]
    rfl
  · rename_i rest
    obtain ⟨⟨t, misread⟩, ht, rfl⟩ := Option.map_eq_some_iff.mp h
    obtain ⟨front, hfront⟩ := classRest_suffix ht
    refine .copied ('[' :: front) rfl rfl (congrArg ('[' :: ·) hfront.symm) fun hr => ?_
    have hfalse : misread = false := hr
    subst hfalse
    have happend := (classEnd_append rest).trans hfront.symm
    rw [classRest_classEnd ht] at happend
    rw [scan_class, classRest_classEnd ht, List.append_cancel_right happend]
  · obtain ⟨⟨t, ml', opens⟩, ht, rfl⟩ := Option.map_eq_some_iff.mp h
    obtain ⟨cs, rfl, hscan⟩ := groupRest_scan ht
    exact .copied ('(' :: cs) rfl rfl rfl fun _ => hscan
  · split at h
    · cases h
    · cases h
      exact ⟨rfl, fun _ => scan_close _⟩
  · cases h
    refine ⟨rfl, fun _ => ?_⟩
    rw [scan_dollar]
    cases ml <;> rfl
  · rename_i c rest _ hesc hclass hgroup hclose hdollar
    cases h
    refine ⟨rfl, fun _ => scan_plain ?_ rest⟩
    simp only [Plain, List.mem_cons, List.not_mem_nil, or_false, not_or]
    exact ⟨hesc, hclass, hgroup, hclose, hdollar⟩

/-- The pieces are the pattern, and what the scan makes of it when its classes are read alike. -/
theorem piecesFrom_follows {n : Nat} {ps : List Piece} (h : piecesFrom n l ml scopes = some ps) :
    l = ps.flatMap Piece.source ∧
      ((∀ p ∈ ps, p.misread = false) → scan l ml scopes = ps.flatMap Piece.anchored) := by
  fun_induction piecesFrom n l ml scopes generalizing ps with
  | case1 =>
    cases h
    exact ⟨rfl, fun _ => rfl⟩
  | case2 => cases h
  | case3 => cases h
  | case4 n c l ml scopes ih =>
    obtain ⟨r, hr, hrest⟩ := Option.bind_eq_some_iff.mp h
    obtain ⟨qs, hqs, rfl⟩ := Option.map_eq_some_iff.mp hrest
    have hfollows := next_follows hr
    obtain ⟨hsource, hscan⟩ := ih r hqs
    refine ⟨?_, fun hps => ?_⟩
    · rw [List.flatMap_cons, ← hsource, ← hfollows.source]
    · rw [List.flatMap_cons, ← hscan fun p hp => hps p (List.mem_cons_of_mem r.piece hp),
        hfollows.scan (hps r.piece List.mem_cons_self)]

end Pieces

/-! ## Whole patterns -/

/-- What is documented of `regexp/syntax`: what it accepts is read by the grammar, and `$` without
`m` is end of text, so that the pattern with `\z` in its place parses to the same expression up to
the marker. -/
structure Re2 (lib : GoLib) : Prop where
  reads : ∀ {pattern re}, lib.parseNoDollar pattern = .ok re → (pieces pattern).isSome
  endText : ∀ {pattern re ps}, lib.parseNoDollar pattern = .ok re → pieces pattern = some ps →
    lib.parse (String.ofList (ps.flatMap Piece.anchored)) = .ok re

/-- No class of the pattern has a range whose upper end is a `[` that, with a `:` behind it and `:]`
later, looks like the opening of a named class. -/
def NoNamedRangeEnd (pattern : String) : Prop :=
  ∀ ps, pieces pattern = some ps → ∀ p ∈ ps, p.misread = false

variable {lib : GoLib} {pattern re : String}

theorem Piece.anchored_eq_source {p : Piece} (h : '$' ∉ p.source) : p.anchored = p.source := by
  cases p with
  | dollar ml => exact absurd List.mem_cons_self h
  | char | escape | quote | cls | introducer | close => rfl

theorem rewrite_pieces {ps : List Piece} (hread : pieces pattern = some ps)
    (h : '$' ∉ pattern.toList ∨ NoNamedRangeEnd pattern) :
    pattern.toList = ps.flatMap Piece.source ∧ (rewrite pattern).toList =
      ps.flatMap Piece.anchored := by
  obtain ⟨hsource, hscan⟩ := piecesFrom_follows hread
  refine ⟨hsource, ?_⟩
  rcases h with hdollar | hrange
  · rw [(rewrite_anchored pattern).eq_of_not_mem hdollar, hsource]
    refine (List.flatMap_congr fun p hp => ?_).symm
    refine Piece.anchored_eq_source fun hmem => hdollar ?_
    rw [hsource]
    exact List.mem_flatMap.mpr ⟨p, hp, hmem⟩
  · rw [rewrite_eq, String.toList_ofList, hscan (hrange ps hread)]

theorem endOfText_eq_ok (hparse : lib.parseNoDollar pattern = .ok re)
    (hagain : lib.parse (rewrite pattern) = .ok re) :
    endOfText lib pattern = .ok (rewrite pattern) := by
  unfold endOfText
  split
  · rename_i hdollar
    have hno : '$' ∉ pattern.toList := by simpa using hdollar
    have hsame := (rewrite_anchored pattern).eq_of_not_mem hno
    rw [String.toList_inj.mp hsame]
  · have hverify : verify lib pattern (rewrite pattern) = .ok () := by
      unfold verify
      simp only [hparse, hagain, ne_eq, not_true_eq_false, if_false]
    simp only [hverify, bind, Except.bind]

/-- The rewrite replaces `$` by `\z` only and is done after one scan. On a pattern RE2 accepts,
without `$` or where no range ends in what looks like a named class, every piece is copied but the
`$` where `m` is off, and the check against RE2's parse passes. -/
theorem rewrite_agrees (hlib : Re2 lib) (pattern : String) :
    (rewrite (rewrite pattern) = rewrite pattern ∧
    Anchored pattern.toList (rewrite pattern).toList) ∧
      ∀ re, lib.parseNoDollar pattern = .ok re → ('$' ∉ pattern.toList ∨ NoNamedRangeEnd pattern) →
        ∃ ps, pieces pattern = some ps ∧ pattern.toList = ps.flatMap Piece.source ∧
          (rewrite pattern).toList = ps.flatMap Piece.anchored ∧ endOfText lib pattern =
          .ok (rewrite pattern) := by
  refine ⟨⟨rewrite_rewrite pattern, rewrite_anchored pattern⟩, ?_⟩
  intro re hparse hrange
  obtain ⟨ps, hread⟩ := Option.isSome_iff_exists.mp (hlib.reads hparse)
  obtain ⟨hsource, hrewrite⟩ := rewrite_pieces hread hrange
  have hagain := hlib.endText hparse hread
  rw [← hrewrite, String.ofList_toList] at hagain
  exact ⟨ps, hread, hsource, hrewrite, endOfText_eq_ok hparse hagain⟩

/-- A parser that prints an expression as it is written, an end of text as `\z` once the marker is
cleared. -/
def printing : GoLib :=
  { refusingLib with
    parse := fun pattern => .ok pattern
    parseNoDollar := fun pattern =>
      match pieces pattern with
      | some ps => .ok (String.ofList (ps.flatMap Piece.anchored))
      | none => .error "error parsing regexp" }

theorem re2_printing : Re2 printing where
  reads := by
    intro pattern re h
    cases hread : pieces pattern with
    | none => simp [printing, hread] at h
    | some ps => rfl
  endText := by
    intro pattern re ps h hread
    simp only [printing, hread] at h ⊢
    exact h

/-- The pattern of the flags' scopes: a bare flag group, a group of its own flags, a class and a
quote. -/
theorem rewrite_agrees_scopes :
    endOfText printing "(?m:a$)[[:alpha:]$]\\Q$\\E(b(?m)$)$" =
      .ok "(?m:a$)[[:alpha:]$]\\Q$\\E(b(?m)$)\\z" := by
  obtain ⟨ps, -, -, -, hend⟩ :=
    (rewrite_agrees re2_printing "(?m:a$)[[:alpha:]$]\\Q$\\E(b(?m)$)$").2
    "(?m:a$)[[:alpha:]$]\\Q$\\E(b(?m)$)\\z" (by decide) (.inr (by unfold NoNamedRangeEnd; decide))
  rw [hend]
  decide

/-- In `[!-[:]$[b:]` the first class ends at its `]`, but the scan runs on to the `:]` of the
second: the `$` between them is kept, and the check refuses a pattern RE2 accepts. -/
theorem rangeEnd_read_as_named :
    Re2 printing ∧ pieces "[!-[:]$[b:]" =
      some [.cls "[!-[:]".toList true, .dollar false, .cls "[b:]".toList false] ∧
      printing.parseNoDollar "[!-[:]$[b:]" = .ok "[!-[:]\\z[b:]" ∧ rewrite "[!-[:]$[b:]" =
        "[!-[:]$[b:]" ∧
      endOfText printing "[!-[:]$[b:]" =
        .error ⟨.invalidRegex, "cannot anchor \"[!-[:]$[b:]\" to the end of text"⟩ := by
  refine ⟨re2_printing, ?_⟩
  decide

end GoAtlas.Filter.Regexanchor
