import GoAtlas.Filter.Options

/-!
# End-of-text anchors

`regexanchor.EndOfText` rewrites the `$` of a RE2 pattern to `\z` for engines whose `$` also matches
before a final newline, and accepts the rewrite only when RE2 parses both to one expression. The
scan is by index in the source; here it is by the remaining characters, with the number of them as
fuel, since a quote, a class or a group introducer is skipped at once.
-/

namespace GoAtlas.Filter.Regexanchor

/-- Cut after the first `a` followed by `b`: what was passed, those two included, and the rest. -/
def cutAfter (a b : Char) : List Char → Option (List Char × List Char)
  | x :: y :: rest =>
    if x = a ∧ y = b then some ([x, y], rest)
    else (cutAfter a b (y :: rest)).map (fun p => (x :: p.1, p.2))
  | _ => none

def classMembers : Nat → List Char → List Char × List Char
  | 0, rest => (rest, [])
  | _, [] => ([], [])
  | n + 1, '\\' :: rest =>
    let p := classMembers n (rest.drop 1)
    ('\\' :: rest.take 1 ++ p.1, p.2)
  | n + 1, '[' :: ':' :: rest =>
    match cutAfter ':' ']' rest with
    | some (name, after) =>
      let p := classMembers n after
      ('[' :: ':' :: name ++ p.1, p.2)
    | none =>
      let p := classMembers n (':' :: rest)
      ('[' :: p.1, p.2)
  | _ + 1, ']' :: rest => ([']'], rest)
  | n + 1, c :: rest =>
    let p := classMembers n rest
    (c :: p.1, p.2)

/-- What follows the `[` of a class through its end; a `]` right after `[` or `[^` is a member. -/
def classEnd (rest : List Char) : List Char × List Char :=
  let caret := if rest.head? = some '^' then 1 else 0
  let bracket := if (rest.drop caret).head? = some ']' then 1 else 0
  let p := classMembers rest.length (rest.drop (caret + bracket))
  (rest.take (caret + bracket) ++ p.1, p.2)

structure Group where
  intro : List Char
  rest : List Char
  multiLine : Bool
  opensScope : Bool
  deriving DecidableEq, Repr

def groupFlags (set multiLine : Bool) : List Char → Group
  | [] => ⟨[], [], multiLine, false⟩
  | ':' :: rest => ⟨[':'], rest, multiLine, true⟩
  | ')' :: rest => ⟨[')'], rest, multiLine, false⟩
  | c :: rest =>
    let set' := if c = '-' then false else set
    let multiLine' := if c = 'm' then set else multiLine
    let g := groupFlags set' multiLine' rest
    { g with intro := c :: g.intro }

def groupStart (rest : List Char) (multiLine : Bool) : Group :=
  match rest with
  | '?' :: 'P' :: '<' :: after => ⟨['?'], 'P' :: '<' :: after, multiLine, true⟩
  | '?' :: '<' :: after => ⟨['?'], '<' :: after, multiLine, true⟩
  | '?' :: after =>
    let g := groupFlags true multiLine after
    { g with intro := '?' :: g.intro }
  | _ => ⟨[], rest, multiLine, true⟩

/-- The scan, with the multi-line state and those to restore at each `)`. -/
def rewriteFrom : Nat → List Char → Bool → List Bool → List Char
  | 0, rest, _, _ => rest
  | _, [], _, _ => []
  | n + 1, '\\' :: 'Q' :: rest, ml, scopes =>
    match cutAfter '\\' 'E' rest with
    | none => '\\' :: 'Q' :: rest
    | some (quoted, after) => '\\' :: 'Q' :: quoted ++ rewriteFrom n after ml scopes
  | n + 1, '\\' :: rest, ml, scopes =>
    '\\' :: rest.take 1 ++ rewriteFrom n (rest.drop 1) ml scopes
  | n + 1, '[' :: rest, ml, scopes =>
    let p := classEnd rest
    '[' :: p.1 ++ rewriteFrom n p.2 ml scopes
  | n + 1, '(' :: rest, ml, scopes =>
    let g := groupStart rest ml
    '(' :: g.intro ++
      rewriteFrom n g.rest g.multiLine (if g.opensScope then ml :: scopes else scopes)
  | n + 1, ')' :: rest, ml, scopes =>
    match scopes with
    | [] => ')' :: rewriteFrom n rest ml []
    | outer :: scopes => ')' :: rewriteFrom n rest outer scopes
  | n + 1, '$' :: rest, ml, scopes =>
    (if ml then ['$'] else ['\\', 'z']) ++ rewriteFrom n rest ml scopes
  | n + 1, c :: rest, ml, scopes => c :: rewriteFrom n rest ml scopes

def rewrite (pattern : String) : String :=
  String.ofList (rewriteFrom pattern.toList.length pattern.toList false [])

example : rewrite "^a$|[$](?m)b$" = "^a\\z|[$](?m)b$" := by decide
example : rewrite "(?m:a$)b$\\Q$\\E\\$" = "(?m:a$)b\\z\\Q$\\E\\$" := by decide

/-! ## The fuel decides nothing

Every skip leaves at most what it was given, so fuel that covers the remaining characters gives
the answer any larger fuel gives.
-/

theorem cutAfter_length {a b : Char} {l passed rest : List Char}
    (h : cutAfter a b l = some (passed, rest)) : rest.length < l.length := by
  fun_induction cutAfter a b l generalizing passed with
  | case1 x y tl hxy =>
    cases h
    simp only [List.length_cons]
    omega
  | case2 x y tl hxy ih =>
    obtain ⟨p, hp, hpe⟩ := Option.map_eq_some_iff.mp h
    cases hpe
    have := ih hp
    simp only [List.length_cons] at this ⊢
    omega
  | case3 => cases h

theorem classMembers_length (n : Nat) (l : List Char) :
    (classMembers n l).2.length ≤ l.length := by
  fun_induction classMembers n l with
  | case1 | case2 => simp
  | case3 n rest p ih =>
    have hp : p.2.length ≤ (rest.drop 1).length := ih
    have : (rest.drop 1).length ≤ rest.length := by simp
    simp only [List.length_cons]
    omega
  | case4 n rest name after hc p ih =>
    have hp : p.2.length ≤ after.length := ih
    have := cutAfter_length hc
    simp only [List.length_cons]
    omega
  | case5 n rest hc p ih =>
    have hp : p.2.length ≤ (':' :: rest).length := ih
    simp only [List.length_cons] at hp ⊢
    omega
  | case6 => simp
  | case7 n c rest _ _ _ p ih =>
    have hp : p.2.length ≤ rest.length := ih
    simp only [List.length_cons]
    omega

theorem classMembers_fuel {n m : Nat} {l : List Char} (hn : l.length ≤ n) (hm : l.length ≤ m) :
    classMembers n l = classMembers m l := by
  induction n generalizing m l with
  | zero =>
    cases List.length_eq_zero_iff.mp (Nat.le_zero.mp hn)
    cases m <;> rfl
  | succ n ih =>
    cases m with
    | zero =>
      cases List.length_eq_zero_iff.mp (Nat.le_zero.mp hm)
      rfl
    | succ m =>
      unfold classMembers
      split
      · rename_i heq; cases heq
      · rfl
      · rename_i k rest heq
        cases heq
        have : (rest.drop 1).length ≤ rest.length := by simp
        simp only [List.length_cons] at hn hm
        rw [ih (m := m) (by omega) (by omega)]
      · rename_i k rest heq
        cases heq
        simp only [List.length_cons] at hn hm
        cases hc : cutAfter ':' ']' rest with
        | none => simp only [ih (m := m) (l := ':' :: rest) (by simp; omega) (by simp; omega)]
        | some p =>
          obtain ⟨passed, after⟩ := p
          have := cutAfter_length hc
          simp only [ih (m := m) (l := after) (by omega) (by omega)]
      · rfl
      · rename_i k c rest _ _ _ heq
        cases heq
        simp only [List.length_cons] at hn hm
        rw [ih (m := m) (by omega) (by omega)]

theorem classEnd_length (l : List Char) : (classEnd l).2.length ≤ l.length := by
  have h := fun k => classMembers_length l.length (l.drop k)
  refine (h _).trans ?_
  simp

theorem groupFlags_length (set ml : Bool) (l : List Char) :
    (groupFlags set ml l).rest.length ≤ l.length := by
  fun_induction groupFlags set ml l with
  | case1 => simp
  | case2 | case3 => simp
  | case4 set ml c rest _ _ set' ml' g ih =>
    have hg : g.rest.length ≤ rest.length := ih
    simp only [List.length_cons]
    omega

theorem groupStart_length (l : List Char) (ml : Bool) :
    (groupStart l ml).rest.length ≤ l.length := by
  unfold groupStart
  split
  · simp
  · simp
  · rename_i after _ _
    have := groupFlags_length true ml after
    simp only [List.length_cons]
    omega
  · simp

theorem rewriteFrom_fuel {n m : Nat} {l : List Char} (hn : l.length ≤ n) (hm : l.length ≤ m)
    (ml : Bool) (scopes : List Bool) : rewriteFrom n l ml scopes = rewriteFrom m l ml scopes := by
  induction n generalizing m l ml scopes with
  | zero =>
    cases List.length_eq_zero_iff.mp (Nat.le_zero.mp hn)
    cases m <;> rfl
  | succ n ih =>
    cases m with
    | zero =>
      cases List.length_eq_zero_iff.mp (Nat.le_zero.mp hm)
      rfl
    | succ m =>
      unfold rewriteFrom
      split
      · rename_i heq; cases heq
      · rfl
      · rename_i k rest heq
        cases heq
        simp only [List.length_cons] at hn hm
        cases hc : cutAfter '\\' 'E' rest with
        | none => rfl
        | some p =>
          obtain ⟨passed, after⟩ := p
          have := cutAfter_length hc
          simp only [ih (m := m) (l := after) (by omega) (by omega)]
      · rename_i k rest _ heq
        cases heq
        have : (rest.drop 1).length ≤ rest.length := by simp
        simp only [List.length_cons] at hn hm
        rw [ih (m := m) (by omega) (by omega)]
      · rename_i k rest heq
        cases heq
        have := classEnd_length rest
        simp only [List.length_cons] at hn hm
        simp only [ih (m := m) (l := (classEnd rest).2) (by omega) (by omega)]
      · rename_i k rest heq
        cases heq
        simp only [List.length_cons] at hn hm
        refine congrArg (_ ++ ·) (ih ?_ ?_ _ _) <;>
          exact (groupStart_length _ _).trans (by omega)
      · rename_i k rest heq
        cases heq
        simp only [List.length_cons] at hn hm
        split <;> simp only [ih (m := m) (l := rest) (by omega) (by omega)]
      · rename_i k rest heq
        cases heq
        simp only [List.length_cons] at hn hm
        simp only [ih (m := m) (l := rest) (by omega) (by omega)]
      · rename_i k c rest _ _ _ _ _ _ heq
        cases heq
        simp only [List.length_cons] at hn hm
        rw [ih (m := m) (by omega) (by omega)]

variable (lib : GoLib)

/-- Whether `out` means to RE2 exactly what `pattern` means. -/
def verify (pattern out : String) : Except Err Unit :=
  match lib.parseNoDollar pattern with
  | .error e => .error ⟨.invalidRegex, e⟩
  | .ok orig =>
    match lib.parse out with
    | .error e => .error ⟨.invalidRegex, "anchored pattern " ++ quote out ++ ": " ++ e⟩
    | .ok re =>
      if orig ≠ re then
        .error ⟨.invalidRegex, "cannot anchor " ++ quote pattern ++ " to the end of text"⟩
      else .ok ()

def endOfText (pattern : String) : Except Err String :=
  if !pattern.toList.contains '$' then .ok pattern
  else do
    let out := rewrite pattern
    verify lib pattern out
    .ok out

end GoAtlas.Filter.Regexanchor
