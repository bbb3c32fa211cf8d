import GoAtlas.Filter.Regexanchor

/-!
# The scan for end-of-text anchors, unit by unit

Equations for the scan of `rewrite` without its fuel, and what one unit is: what it copies and what
state it leaves. What the scan writes is the pattern with some `$` replaced by `\z`. A unit is read
alike when the text behind it is rewritten, because the only unit that looks further, a class, looks
for `:]`, which no replacement makes or breaks. So a second scan changes nothing.
-/

namespace GoAtlas.Filter.Regexanchor

/-! ## Replaced anchors -/

/-- The second text is the first with some `$` replaced by `\z`. -/
inductive Anchored : List Char → List Char → Prop where
  | nil : Anchored [] []
  | same (c : Char) {l l' : List Char} : Anchored l l' → Anchored (c :: l) (c :: l')
  | dollar {l l' : List Char} : Anchored l l' → Anchored ('$' :: l) ('\\' :: 'z' :: l')

namespace Anchored

variable {l l' : List Char} {c : Char}

theorem refl (l : List Char) : Anchored l l := by
  induction l with
  | nil => exact .nil
  | cons c l ih => exact .same c ih

theorem append_left (front : List Char) (h : Anchored l l') :
    Anchored (front ++ l) (front ++ l') := by
  induction front with
  | nil => exact h
  | cons c front ih => exact .same c ih

theorem eq_nil (h : Anchored [] l') : l' = [] := by
  cases h
  rfl

theorem of_cons (hc : c ≠ '$') (h : Anchored (c :: l) l') : ∃ t, l' = c :: t ∧ Anchored l t := by
  cases h with
  | same _ h => exact ⟨_, rfl, h⟩
  | dollar h => exact absurd rfl hc

theorem head?_eq_some_iff (h : Anchored l l') (hd : c ≠ '$') (hb : c ≠ '\\') :
    l'.head? = some c ↔ l.head? = some c := by
  cases h with
  | nil => rfl
  | same _ _ => rfl
  | dollar _ =>
    constructor
    · intro heq
      cases heq
      exact absurd rfl hb
    · intro heq
      cases heq
      exact absurd rfl hd

theorem eq_of_not_mem (h : Anchored l l') (hl : '$' ∉ l) : l' = l := by
  induction h with
  | nil => rfl
  | same c _ ih => rw [ih fun hmem => hl (List.mem_cons_of_mem c hmem)]
  | dollar _ _ => exact absurd List.mem_cons_self hl

end Anchored

/-! ## Cuts -/

section Cuts

variable {a b : Char} {l l' passed rest : List Char}

theorem cutAfter_eq (h : cutAfter a b l = some (passed, rest)) : l = passed ++ rest := by
  fun_induction cutAfter a b l generalizing passed with
  | case1 x y tl hxy =>
    cases h
    rfl
  | case2 x y tl hxy ih =>
    obtain ⟨p, hp, hpe⟩ := Option.map_eq_some_iff.mp h
    cases hpe
    rw [ih hp]
    rfl
  | case3 => cases h

theorem cutAfter_append (h : cutAfter a b l = some (passed, rest)) (rest' : List Char) :
    cutAfter a b (passed ++ rest') = some (passed, rest') := by
  fun_induction cutAfter a b l generalizing passed with
  | case1 x y tl hxy =>
    cases h
    show cutAfter a b (x :: y :: rest') = _
    rw [cutAfter, if_pos hxy]
  | case2 x y tl hxy ih =>
    obtain ⟨p, hp, hpe⟩ := Option.map_eq_some_iff.mp h
    cases hpe
    have hback := ih hp
    -- what was passed behind `x` begins with `y`
    cases hp1 : p.1 with
    | nil =>
      have hlen := cutAfter_length hp
      rw [cutAfter_eq hp, hp1] at hlen
      exact absurd hlen (Nat.lt_irrefl _)
    | cons z zs =>
      have hz : y = z := by
        have hsplit := cutAfter_eq hp
        rw [hp1] at hsplit
        exact List.head_eq_of_cons_eq hsplit
      subst hz
      rw [hp1, List.cons_append] at hback
      rw [List.cons_append, List.cons_append, cutAfter, if_neg hxy, hback]
      rfl
  | case3 => cases h

theorem cutAfter_cons_eq_none_iff (x : Char) :
    cutAfter a b (x :: l) = none ↔ ¬(x = a ∧ l.head? = some b) ∧ cutAfter a b l = none := by
  cases l with
  | nil => simp [cutAfter]
  | cons y l =>
    by_cases hxy : x = a ∧ y = b
    · simp [cutAfter, hxy]
    · simp [cutAfter, hxy]

theorem Anchored.cutAfter_eq_none (h : Anchored l l') (hl : cutAfter ':' ']' l = none) :
    cutAfter ':' ']' l' = none := by
  induction h with
  | nil => exact hl
  | same c h ih =>
    rw [cutAfter_cons_eq_none_iff] at hl ⊢
    refine ⟨?_, ih hl.2⟩
    rintro ⟨hc, hhead⟩
    exact hl.1 ⟨hc, (h.head?_eq_some_iff (by decide) (by decide)).mp hhead⟩
  | dollar h ih =>
    rw [cutAfter_cons_eq_none_iff] at hl
    rw [cutAfter_cons_eq_none_iff, cutAfter_cons_eq_none_iff]
    refine ⟨?_, ?_, ih hl.2⟩
    · rintro ⟨hc, -⟩
      cases hc
    · rintro ⟨hc, -⟩
      cases hc

end Cuts

/-! ## Members of a class -/

def members (l : List Char) : List Char × List Char := classMembers l.length l

section Members

variable {l l' rest passed after : List Char} {c : Char}

theorem classMembers_eq_members {n : Nat} (h : l.length ≤ n) : classMembers n l = members l :=
  classMembers_fuel h le_rfl

theorem members_escape (c : Char) (rest : List Char) :
    members ('\\' :: c :: rest) = ('\\' :: c :: (members rest).1, (members rest).2) := by
  show classMembers ((c :: rest).length + 1) _ = _
  unfold classMembers
  simp only [List.drop_succ_cons, List.drop_zero, List.take_succ_cons, List.take_zero]
  rw [classMembers_eq_members (by simp)]
  rfl

theorem members_named (h : cutAfter ':' ']' rest = some (passed, after)) :
    members ('[' :: ':' :: rest) =
      ('[' :: ':' :: passed ++ (members after).1, (members after).2) := by
  have hlen := cutAfter_length h
  show classMembers ((':' :: rest).length + 1) _ = _
  unfold classMembers
  simp only [h]
  rw [classMembers_eq_members (by simp only [List.length_cons]; omega)]

/-- The character the scan of a class passes alone: not an escape, an end or the opening of a named
class. -/
def Single (l : List Char) (c : Char) : Prop :=
  c ≠ '\\' ∧ c ≠ ']' ∧ (c = '[' → l.head? = some ':' → cutAfter ':' ']' l.tail = none)

theorem members_single (h : Single l c) :
    members (c :: l) = (c :: (members l).1, (members l).2) := by
  obtain ⟨hesc, hclose, hnamed⟩ := h
  show classMembers (l.length + 1) _ = _
  unfold classMembers
  split
  · rename_i hlen
    cases hlen
  · rename_i heq _
    cases heq
  · rename_i heq
    cases heq
    exact absurd rfl hesc
  · rename_i n rest hlen heq
    cases heq
    cases hlen
    have hcut : cutAfter ':' ']' rest = none := hnamed rfl rfl
    simp only [hcut]
    rfl
  · rename_i heq
    cases heq
    exact absurd rfl hclose
  · rename_i hlen heq
    cases heq
    cases hlen
    rfl

theorem Single.anchored (hs : Single l c) (h : Anchored l l') : Single l' c := by
  obtain ⟨hesc, hclose, hnamed⟩ := hs
  refine ⟨hesc, hclose, fun hc hhead => ?_⟩
  have hcolon : l.head? = some ':' := (h.head?_eq_some_iff (by decide) (by decide)).mp hhead
  obtain ⟨t, rfl⟩ := List.head?_eq_some_iff.mp hcolon
  obtain ⟨t', rfl, ht⟩ := h.of_cons (by decide)
  exact ht.cutAfter_eq_none (hnamed hc rfl)

theorem members_induction {motive : List Char → Prop} (nil : motive []) (backslash : motive ['\\'])
    (escape : ∀ c rest, motive rest → motive ('\\' :: c :: rest))
    (close : ∀ rest, motive (']' :: rest))
    (named : ∀ rest passed after, cutAfter ':' ']' rest = some (passed, after) → motive after →
      motive ('[' :: ':' :: rest))
    (single : ∀ c rest, Single rest c → motive rest → motive (c :: rest)) (l : List Char) :
    motive l := by
  induction hn : l.length using Nat.strong_induction_on generalizing l with
  | _ n ih =>
    have step : ∀ t : List Char, t.length < l.length → motive t := fun t ht => ih _ (hn ▸ ht) t rfl
    cases l with
    | nil => exact nil
    | cons c rest =>
      by_cases hesc : c = '\\'
      · subst hesc
        cases rest with
        | nil => exact backslash
        | cons c rest => exact escape c rest (step rest (by simp only [List.length_cons]; omega))
      by_cases hclose : c = ']'
      · subst hclose
        exact close rest
      by_cases hs : Single rest c
      · exact single c rest hs (step rest (by simp))
      -- what is left opens a named class
      unfold Single at hs
      push Not at hs
      obtain ⟨rfl, hhead, hcut⟩ := hs hesc hclose
      obtain ⟨t, rfl⟩ := List.head?_eq_some_iff.mp hhead
      obtain ⟨⟨passed, after⟩, hcut⟩ := Option.ne_none_iff_exists'.mp hcut
      have hlen := cutAfter_length hcut
      exact named t passed after hcut
        (step after (by simp only [List.length_cons, List.tail_cons] at *; omega))

theorem members_append (l : List Char) : (members l).1 ++ (members l).2 = l := by
  induction l using members_induction with
  | nil | backslash | close => rfl
  | escape c rest ih =>
    rw [members_escape]
    simp only [List.cons_append, ih]
  | named rest passed after hcut ih =>
    rw [members_named hcut]
    simp only [List.cons_append, List.append_assoc, ih, ← cutAfter_eq hcut]
  | single c rest hs ih =>
    rw [members_single hs]
    simp only [List.cons_append, ih]

theorem members_anchored (l : List Char) (h : Anchored (members l).2 l') :
    members ((members l).1 ++ l') = ((members l).1, l') := by
  induction l using members_induction with
  | nil | backslash =>
    cases h.eq_nil
    rfl
  | close rest => rfl
  | escape c rest ih =>
    rw [members_escape] at h ⊢
    rw [List.cons_append, List.cons_append, members_escape, ih h]
  | named rest passed after hcut ih =>
    rw [members_named hcut] at h ⊢
    have hcut' := cutAfter_append hcut ((members after).1 ++ l')
    simp only [List.cons_append, List.append_assoc]
    rw [members_named hcut', ih h]
    rfl
  | single c rest hs ih =>
    rw [members_single hs] at h ⊢
    have hrest : Anchored rest ((members rest).1 ++ l') := by
      have hall := h.append_left (members rest).1
      rwa [members_append] at hall
    rw [List.cons_append, members_single (hs.anchored hrest), ih h]

end Members

/-! ## Classes -/

section Classes

variable {l l' : List Char}

/-- What a class may begin with before its members are scanned: `^`, and a `]` that is a member. -/
def opening (l : List Char) : Nat :=
  let caret := if l.head? = some '^' then 1 else 0
  caret + if (l.drop caret).head? = some ']' then 1 else 0

theorem classEnd_eq (l : List Char) :
    classEnd l =
      (l.take (opening l) ++ (members (l.drop (opening l))).1,
      (members (l.drop (opening l))).2) := by
  have hfuel : (l.drop (opening l)).length ≤ l.length := by simp
  rw [← classMembers_eq_members hfuel]
  rfl

theorem classEnd_append (l : List Char) : (classEnd l).1 ++ (classEnd l).2 = l := by
  rw [classEnd_eq, List.append_assoc, members_append, List.take_append_drop]

theorem Anchored.drop {k : Nat} (h : Anchored l l') (hk : '$' ∉ l.take k) :
    Anchored (l.drop k) (l'.drop k) := by
  induction k generalizing l l' with
  | zero => exact h
  | succ k ih =>
    cases h with
    | nil => exact .nil
    | same c h => exact ih h fun hmem => hk (List.mem_cons_of_mem c hmem)
    | dollar h => exact absurd List.mem_cons_self hk

theorem Anchored.opening_eq (h : Anchored l l') : opening l' = opening l := by
  unfold opening
  by_cases hcaret : l.head? = some '^'
  · have hcaret' := (h.head?_eq_some_iff (by decide) (by decide)).mpr hcaret
    have htail : Anchored (l.drop 1) (l'.drop 1) := by
      refine h.drop ?_
      obtain ⟨t, rfl⟩ := List.head?_eq_some_iff.mp hcaret
      simp
    simp only [hcaret, hcaret', if_true, htail.head?_eq_some_iff (c := ']') (by decide) (by decide)]
  · have hcaret' := mt (h.head?_eq_some_iff (by decide) (by decide)).mp hcaret
    simp only [if_neg hcaret, if_neg hcaret', List.drop_zero,
      h.head?_eq_some_iff (c := ']') (by decide) (by decide)]

theorem opening_le (l : List Char) : opening l ≤ l.length := by
  unfold opening
  split
  · rename_i hcaret
    obtain ⟨t, rfl⟩ := List.head?_eq_some_iff.mp hcaret
    cases t with
    | nil => simp
    | cons c t =>
      simp only [List.length_cons]
      split <;> omega
  · cases l with
    | nil => simp
    | cons c t =>
      simp only [List.length_cons]
      split <;> omega

theorem classEnd_anchored (l : List Char) (h : Anchored (classEnd l).2 l') :
    classEnd ((classEnd l).1 ++ l') = ((classEnd l).1, l') := by
  have hall : Anchored l ((classEnd l).1 ++ l') := by
    have hall := h.append_left (classEnd l).1
    rwa [classEnd_append] at hall
  have hlen : (l.take (opening l)).length = opening l := by
    rw [List.length_take, Nat.min_eq_left (opening_le l)]
  rw [classEnd_eq ((classEnd l).1 ++ l'), hall.opening_eq]
  rw [classEnd_eq] at h ⊢
  rw [List.append_assoc, List.take_left' hlen, List.drop_left' hlen, members_anchored _ h]

end Classes

/-! ## Groups -/

section Groups

variable {l l' : List Char} {set ml : Bool}

theorem groupFlags_append (set ml : Bool) (l : List Char) :
    (groupFlags set ml l).intro ++ (groupFlags set ml l).rest = l := by
  fun_induction groupFlags set ml l with
  | case1 | case2 | case3 => rfl
  | case4 set ml c rest _ _ set' ml' g ih => exact congrArg (c :: ·) ih

theorem groupFlags_anchored (h : Anchored (groupFlags set ml l).rest l') :
    groupFlags set ml ((groupFlags set ml l).intro ++ l') =
      { groupFlags set ml l with rest := l' } := by
  fun_induction groupFlags set ml l with
  | case1 =>
    cases h.eq_nil
    rfl
  | case2 | case3 => rfl
  | case4 set ml c rest hcolon hclose set' ml' g ih =>
    rw [List.cons_append, groupFlags]
    · rw [ih h]
    · exact hcolon
    · exact hclose

theorem groupStart_plain (h : l.head? ≠ some '?') (ml : Bool) :
    groupStart l ml = ⟨[], l, ml, true⟩ := by
  unfold groupStart
  split
  · exact absurd rfl h
  · exact absurd rfl h
  · exact absurd rfl h
  · rfl

theorem groupStart_flags (h : l.head? ≠ some '<')
    (hP : l.head? = some 'P' → l.tail.head? ≠ some '<') (ml : Bool) :
    groupStart ('?' :: l) ml =
      { groupFlags true ml l with intro := '?' :: (groupFlags true ml l).intro } := by
  unfold groupStart
  split
  · rename_i heq
    cases heq
    exact absurd rfl (hP rfl)
  · rename_i heq
    cases heq
    exact absurd rfl h
  · rename_i heq
    cases heq
    rfl
  · rename_i hne
    exact absurd rfl (hne l)

theorem groupStart_append (l : List Char) (ml : Bool) :
    (groupStart l ml).intro ++ (groupStart l ml).rest = l := by
  unfold groupStart
  split
  · rfl
  · rfl
  · exact congrArg ('?' :: ·) (groupFlags_append _ _ _)
  · rfl

theorem groupStart_anchored (h : Anchored (groupStart l ml).rest l') :
    groupStart ((groupStart l ml).intro ++ l') ml = { groupStart l ml with rest := l' } := by
  revert h
  fun_cases groupStart l ml with
  | case1 after =>
    intro h
    obtain ⟨t, rfl, ht⟩ := h.of_cons (by decide)
    obtain ⟨t', rfl, -⟩ := ht.of_cons (by decide)
    rfl
  | case2 after =>
    intro h
    obtain ⟨t, rfl, -⟩ := h.of_cons (by decide)
    rfl
  | case3 after hP hname g =>
    intro h
    have hall : Anchored after (g.intro ++ l') := by
      have hall := h.append_left g.intro
      rwa [groupFlags_append] at hall
    rw [List.cons_append, groupStart_flags, groupFlags_anchored h]
    · rw [Ne, hall.head?_eq_some_iff (by decide) (by decide)]
      intro hhead
      exact hname after.tail (List.cons_head?_tail hhead).symm
    · rw [hall.head?_eq_some_iff (by decide) (by decide)]
      intro hhead
      obtain ⟨t, rfl⟩ := List.head?_eq_some_iff.mp hhead
      obtain ⟨t', ht', ht⟩ := hall.of_cons (by decide)
      rw [ht', List.tail_cons, Ne, ht.head?_eq_some_iff (by decide) (by decide)]
      intro hhead'
      exact hP t.tail (by rw [List.cons_head?_tail hhead'])
  | case4 _ _ _ hflags =>
    intro h
    refine groupStart_plain ?_ ml
    rw [List.nil_append, Ne, h.head?_eq_some_iff (by decide) (by decide)]
    intro hhead
    exact hflags l.tail (List.cons_head?_tail hhead).symm

end Groups

/-! ## The scan -/

def scan (l : List Char) (ml : Bool) (scopes : List Bool) : List Char :=
  rewriteFrom l.length l ml scopes

section Scan

variable {l l' rest passed after : List Char} {c : Char} {ml : Bool} {scopes : List Bool}

theorem rewrite_eq (pattern : String) :
    rewrite pattern = String.ofList (scan pattern.toList false []) := rfl

theorem rewriteFrom_eq_scan {n : Nat} (h : l.length ≤ n) :
    rewriteFrom n l ml scopes = scan l ml scopes :=
  rewriteFrom_fuel h le_rfl ml scopes

theorem scan_nil (ml : Bool) (scopes : List Bool) : scan [] ml scopes = [] := rfl

theorem scan_openQuote (h : cutAfter '\\' 'E' rest = none) :
    scan ('\\' :: 'Q' :: rest) ml scopes = '\\' :: 'Q' :: rest := by
  show rewriteFrom (('Q' :: rest).length + 1) _ _ _ = _
  unfold rewriteFrom
  simp only [h]

theorem scan_quote (h : cutAfter '\\' 'E' rest = some (passed, after)) :
    scan ('\\' :: 'Q' :: rest) ml scopes = '\\' :: 'Q' :: passed ++ scan after ml scopes := by
  have hlen := cutAfter_length h
  show rewriteFrom (('Q' :: rest).length + 1) _ _ _ = _
  unfold rewriteFrom
  simp only [h]
  rw [rewriteFrom_eq_scan (by simp only [List.length_cons]; omega)]

theorem scan_escape (hc : c ≠ 'Q') (rest : List Char) :
    scan ('\\' :: c :: rest) ml scopes = '\\' :: c :: scan rest ml scopes := by
  show rewriteFrom ((c :: rest).length + 1) _ _ _ = _
  rw [rewriteFrom]
  · simp only [List.drop_succ_cons, List.drop_zero, List.take_succ_cons, List.take_zero]
    rw [rewriteFrom_eq_scan (by simp)]
    rfl
  · intro t heq
    cases heq
    exact hc rfl

theorem scan_class (rest : List Char) :
    scan ('[' :: rest) ml scopes = '[' :: (classEnd rest).1 ++ scan
      (classEnd rest).2 ml scopes := by
  show rewriteFrom (rest.length + 1) _ _ _ = _
  rw [rewriteFrom, rewriteFrom_eq_scan (classEnd_length rest)]

theorem scan_group (rest : List Char) :
    scan ('(' :: rest) ml scopes = '(' :: (groupStart rest ml).intro ++
      scan (groupStart rest ml).rest (groupStart rest ml).multiLine
        (if (groupStart rest ml).opensScope then ml :: scopes else scopes) := by
  show rewriteFrom (rest.length + 1) _ _ _ = _
  rw [rewriteFrom, rewriteFrom_eq_scan (groupStart_length rest ml)]

theorem scan_close (rest : List Char) :
    scan (')' :: rest) ml scopes = ')' :: scan rest (scopes.headD ml) scopes.tail := by
  cases scopes <;> rfl

theorem scan_dollar (rest : List Char) :
    scan ('$' :: rest) ml scopes = (if ml then ['$'] else ['\\', 'z']) ++ scan rest ml scopes := rfl

/-- The characters that begin no unit of their own. -/
def Plain (c : Char) : Prop := c ∉ ['\\', '[', '(', ')', '$']

theorem scan_plain (h : Plain c) (rest : List Char) :
    scan (c :: rest) ml scopes = c :: scan rest ml scopes := by
  simp only [Plain, List.mem_cons, List.not_mem_nil, or_false, not_or] at h
  obtain ⟨hesc, hclass, hgroup, hclose, hdollar⟩ := h
  show rewriteFrom (rest.length + 1) _ _ _ = _
  rw [rewriteFrom]
  · rfl
  · exact fun _ heq => absurd heq hesc
  · exact hesc
  · exact hclass
  · exact hgroup
  · exact hclose
  · exact hdollar

/-! ## Units -/

/-- The text begins with a unit that is written as `out` and leaves the scan at `rest` in the new
state, and whatever the scan makes of the rest, the unit is read again as it was. -/
structure IsUnit (ml : Bool) (scopes : List Bool) (l out rest : List Char) (ml' : Bool)
    (scopes' : List Bool) : Prop where
  shorter : rest.length < l.length
  anchored : ∀ {rest'}, Anchored rest rest' → Anchored l (out ++ rest')
  first : scan l ml scopes = out ++ scan rest ml' scopes'
  again : ∀ {rest'}, Anchored rest rest' → scan (out ++ rest') ml scopes =
    out ++ scan rest' ml' scopes'

theorem IsUnit.copied {out : List Char} {ml' : Bool} {scopes' : List Bool} (hl : out ++ rest = l)
    (hne : out ≠ []) (again : ∀ {rest'}, Anchored rest rest' → scan (out ++ rest') ml scopes =
    out ++ scan rest' ml' scopes') :
    IsUnit ml scopes l out rest ml' scopes' where
  shorter := by
    have hpos := List.length_pos_iff.mpr hne
    rw [← hl, List.length_append]
    omega
  anchored h := hl ▸ h.append_left out
  first := hl ▸ again (.refl rest)
  again := again

theorem exists_isUnit (hl : l ≠ []) (ml : Bool) (scopes : List Bool) :
    ∃ out rest ml' scopes', IsUnit ml scopes l out rest ml' scopes' := by
  obtain ⟨c, rest, rfl⟩ := List.exists_cons_of_ne_nil hl
  by_cases hplain : Plain c
  · exact ⟨[c], rest, ml, scopes, .copied rfl (by simp) fun _ => scan_plain hplain _⟩
  simp only [Plain, not_not, List.mem_cons, List.not_mem_nil, or_false] at hplain
  obtain rfl | rfl | rfl | rfl | rfl := hplain
  · -- an escape, or a quote that is closed or not
    cases rest with
    | nil =>
      refine ⟨['\\'], [], ml, scopes, .copied rfl (by simp) fun h => ?_⟩
      cases h.eq_nil
      rfl
    | cons c rest =>
      by_cases hQ : c = 'Q'
      · subst hQ
        cases hcut : cutAfter '\\' 'E' rest with
        | none =>
          refine ⟨'\\' :: 'Q' :: rest, [], ml, scopes, .copied (by simp) (by simp) fun h => ?_⟩
          cases h.eq_nil
          rw [List.append_nil, scan_openQuote hcut, scan_nil, List.append_nil]
        | some p =>
          obtain ⟨passed, after⟩ := p
          refine ⟨'\\' :: 'Q' :: passed, after, ml, scopes, .copied ?_ (by simp) fun _ => ?_⟩
          · rw [cutAfter_eq hcut]
            rfl
          · exact scan_quote (cutAfter_append hcut _)
      · exact ⟨['\\', c], rest, ml, scopes, .copied rfl (by simp) fun _ => scan_escape hQ _⟩
  · refine ⟨'[' :: (classEnd rest).1, (classEnd rest).2, ml, scopes, .copied ?_
      (by simp) fun h => ?_⟩
    · rw [List.cons_append, classEnd_append]
    · rw [List.cons_append, scan_class, classEnd_anchored rest h]
  · refine ⟨'(' :: (groupStart rest ml).intro, (groupStart rest ml).rest,
      (groupStart rest ml).multiLine,
      if (groupStart rest ml).opensScope then ml :: scopes else scopes, .copied ?_
        (by simp) fun h => ?_⟩
    · rw [List.cons_append, groupStart_append]
    · rw [List.cons_append, scan_group, groupStart_anchored h]
  · exact ⟨[')'], rest, _, _, .copied rfl (by simp) fun _ => scan_close _⟩
  · -- the only unit that is not copied, outside multi-line mode
    cases ml with
    | true => exact ⟨['$'], rest, true, scopes, .copied rfl (by simp) fun _ => scan_dollar _⟩
    | false =>
      exact ⟨['\\', 'z'], rest, false, scopes,
        { shorter := by simp
          anchored := .dollar
          first := scan_dollar rest
          again := fun _ => scan_escape (by decide) _ }⟩

/-! ## Whole scans -/

theorem scan_induction {motive : List Char → Bool → List Bool → Prop}
    (nil : ∀ ml scopes, motive [] ml scopes)
    (unit : ∀ {l out rest ml scopes ml' scopes'}, IsUnit ml scopes l out rest ml' scopes' →
    motive rest ml' scopes' →
      motive l ml scopes) (l : List Char) (ml : Bool) (scopes :
        List Bool) : motive l ml scopes := by
  induction hn : l.length using Nat.strong_induction_on generalizing l ml scopes with
  | _ n ih =>
    by_cases hl : l = []
    · subst hl
      exact nil ml scopes
    · obtain ⟨out, rest, ml', scopes', hu⟩ := exists_isUnit hl ml scopes
      exact unit hu (ih _ (hn ▸ hu.shorter) rest ml' scopes' rfl)

theorem scan_anchored (l : List Char) (ml : Bool) (scopes : List Bool) :
    Anchored l (scan l ml scopes) := by
  induction l, ml, scopes using scan_induction with
  | nil => exact .nil
  | unit hu ih =>
    rw [hu.first]
    exact hu.anchored ih

theorem scan_scan (l : List Char) (ml : Bool) (scopes : List Bool) :
    scan (scan l ml scopes) ml scopes = scan l ml scopes := by
  induction l, ml, scopes using scan_induction with
  | nil => rfl
  | unit hu ih => rw [hu.first, hu.again (scan_anchored _ _ _), ih]

theorem rewrite_rewrite (pattern : String) : rewrite (rewrite pattern) = rewrite pattern := by
  rw [rewrite_eq (rewrite pattern), rewrite_eq pattern, String.toList_ofList, scan_scan]

theorem rewrite_anchored (pattern : String) : Anchored pattern.toList (rewrite pattern).toList := by
  rw [rewrite_eq, String.toList_ofList]
  exact scan_anchored _ _ _

end Scan

end GoAtlas.Filter.Regexanchor
