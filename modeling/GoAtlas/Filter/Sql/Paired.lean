import GoAtlas.Filter.Sql.Translator

/-!
# Two runs of the SQL translator

Two translators that differ at most in how they render a literal walk two trees that differ at
most in their literals (`Alike`). Where both succeed, the clauses are one clause up to their bind
slots: each becomes the same tree when its slots are replaced (`subst`). What a caller has to show
is one step, the rendering of two related literals (`Paired.value`).
-/

namespace GoAtlas.Filter.Sql

open GoAtlas.Filter GoAtlas.Lib GoAtlas.Lib.Run

/-! ## Trees that differ in their literals -/

/-- The trees differ at most in their literals, which are related by `R` pair by pair. -/
inductive Alike (R : Value → Value → Prop) : Node → Node → Prop where
  | nil : Alike R .nil .nil
  | literal {v w : Value} {text text' : String} : R v w →
    Alike R (.literal v text) (.literal w text')
  | ident (name : String) : Alike R (.ident name) (.ident name)
  | binaryOp {op : Operator} {l l' r r' : Node} :
    Alike R l l' → Alike R r r' → Alike R (.binaryOp op l r) (.binaryOp op l' r')
  | unaryOp {op : Operator} {x x' : Node} : Alike R x x' → Alike R (.unaryOp op x) (.unaryOp op x')
  | call {op : Operator} {t t' : Node} {as as' : List Node} :
    Alike R t t' → List.Forall₂ (Alike R) as as' → Alike R (.call op t as) (.call op t' as')
  | list {es es' : List Node} : List.Forall₂ (Alike R) es es' → Alike R (.list es) (.list es')

namespace Translator

/-- Two translators for one configuration and dialect, and what their runs have in common:
literals related by `R`, argument slices by `I`, renderings equal once slots are replaced by `g`
in the first and by `h` in the second. -/
structure Paired (lib : GoLib) (b : Backend) (t t' : Translator) (R : Value → Value → Prop)
    (I : List Value → List Value → Prop) (g h : Nat → String → Value → Operand) : Prop where
  config : t'.config = t.config
  dialect : t.dialect = b.dialect lib
  dialect' : t'.dialect = b.dialect lib
  isNull : ∀ {v w}, R v w → v.isNull = w.isNull
  needle : ∀ {op x x' y y'}, R (.string x) (.string y) → (b.dialect lib).needle op x = .ok x' →
    (b.dialect lib).needle op y = .ok y' → R (.string x') (.string y')
  value : ∀ {v w}, R v w → Agree I (fun o o' => o.subst g = o'.subst h) (t.value v) (t'.value w)
  take : ∀ {s s' u u'}, I s s' → I u u' → I (u.take s.length) (u'.take s'.length)

section Walk

variable {lib : GoLib} {b : Backend} {t t' : Translator} {R : Value → Value → Prop} {op : Operator}
    {n m : Node} {as as' : List Node}
  {I : List Value → List Value → Prop} {g h : Nat → String → Value → Operand}

theorem forall₂_isLiteral {ns ms : List Node} (ha : List.Forall₂ (Alike R) ns ms) :
    ms.all Node.isLiteral = ns.all Node.isLiteral := by
  induction ha with
  | nil => rfl
  | cons hnm _ ih => cases hnm <;> simp [Node.isLiteral, ih]

theorem map_subst {α β : Type} {f : α → β} {f' : α → β} {as cs : List α}
    (ha : List.Forall₂ (fun a c => f a = f' c) as cs) : as.map f = cs.map f' := by
  induction ha with
  | nil => rfl
  | cons hac _ ih => rw [List.map_cons, List.map_cons, hac, ih]

theorem visitLiteral_ok {v w : Value} (hv : visitLiteral v = .ok w) : w = v := by
  unfold visitLiteral at hv
  split at hv <;> cases hv
  rfl

theorem sizeTarget_alike (ha : Alike R n m)
    (has : List.Forall₂ (Alike R) as as') : Alike R (sizeTarget n as) (sizeTarget m as') := by
  cases ha with
  | nil =>
    rcases has with _ | ⟨h1, _ | ⟨h2, h3⟩⟩
    · exact .nil
    · exact h1
    · exact .nil
  | literal hR => exact .literal hR
  | ident name => exact .ident name
  | binaryOp hl hr => exact .binaryOp hl hr
  | unaryOp hx => exact .unaryOp hx
  | call ht has => exact .call ht has
  | list hes => exact .list hes

theorem stringPredicates_subst (k : Nat → String → Value → Operand) (name quoted : String)
    (xs : List Operand) :
    let tpl := (b.dialect lib).stringPredicates
    ∀ p ∈ [tpl.contains, tpl.startsWith, tpl.endsWith, tpl.matches],
      (p.tree (.column name quoted) xs).subst k =
        p.tree (.column name quoted) (xs.map (Operand.subst k)) := by
  have hget : ∀ o : Option Operand, (o.getD .null).subst k = (o.map (Operand.subst k)).getD .null :=
    fun o => by cases o <;> rfl
  cases b <;> simp [Backend.dialect, Postgres.dialect, Mariadb.dialect, Clickhouse.dialect,
    Postgres.stringPredicates, Mariadb.stringPredicates, Clickhouse.stringPredicates,
    Postgres.endsWith, Mariadb.endsWith, Template.single, hget, zero, one]

theorem translateUnary_paired {x x' : Walk Clause}
    (hx : Agree I (fun c c' => c.subst g = c'.subst h) x x') :
    Agree I (fun c c' => c.subst g = c'.subst h) (translateUnary op x) (translateUnary op x') := by
  unfold translateUnary
  split
  · exact hx.map fun _ _ h => congrArg Clause.not h
  · exact .throw_left

variable (hp : Paired lib b t t' R I g h) {l l' r r' : Node}

include hp

theorem Alike.isNullLiteral (ha : Alike R n m) :
    m.isNullLiteral = n.isNullLiteral := by
  cases ha with
  | literal hR => exact (hp.isNull hR).symm
  | _ => rfl

theorem column_paired (ha : Alike R n m) {o o' : Operand}
    (hn : t.column n = .ok o) (hm : t'.column m = .ok o') :
    o = o' ∧ ∃ name quoted, o = .column name quoted := by
  cases ha with
  | ident name =>
    simp only [column, visitIdent, hp.config, hp.dialect, hp.dialect'] at hn hm
    rw [hn] at hm
    cases hm
    split at hn
    · cases hn
    · obtain ⟨q, -, hq⟩ := except_bind.mp hn
      cases hq
      exact ⟨rfl, _, _, rfl⟩
  | _ => cases hn

theorem operandSQL_paired (ha : Alike R n m) :
    Agree I (fun o o' => o.subst g = o'.subst h) (t.operandSQL n) (t'.operandSQL m) := by
  unfold operandSQL
  cases ha with
  | ident name =>
    refine .lift fun o o' ho ho' => ?_
    obtain ⟨rfl, _, _, rfl⟩ := column_paired hp (.ident name) ho ho'
    rfl
  | literal hR =>
    refine .lift_bind fun v w hv hw => ?_
    rw [visitLiteral_ok hv, visitLiteral_ok hw]
    exact hp.value hR
  | @call op _ _ _ _ htarget hargs =>
    cases op with
    | opSize =>
      refine .lift fun o o' ho ho' => ?_
      obtain ⟨c, hc, ho⟩ := except_bind.mp ho
      obtain ⟨c', hc', ho'⟩ := except_bind.mp ho'
      obtain ⟨rfl, _, _, rfl⟩ := column_paired hp (sizeTarget_alike htarget hargs) hc hc'
      rw [hp.dialect] at ho
      rw [hp.dialect'] at ho'
      cases ho
      cases ho'
      cases b <;> rfl
    | _ => exact .throw_left
  | _ => exact .throw_left

theorem translateNullComparison_paired (ha : Alike R n m) :
    Agree I (fun a a' => a.subst g = a'.subst h) (t.translateNullComparison op n)
      (t'.translateNullComparison op m) := by
  refine (operandSQL_paired hp ha).bind fun o o' ho => ?_
  split
  · exact .pure (by simp [ho])
  · exact .pure (by simp [ho])
  · exact .throw_left

theorem translateComparison_paired (hl : Alike R l l') (hr : Alike R r r') :
    Agree I (fun a a' => a.subst g = a'.subst h) (t.translateComparison lib op l r)
      (t'.translateComparison lib op l' r') := by
  refine .lift_bind fun _ _ _ _ => ?_
  rw [Alike.isNullLiteral hp hl, Alike.isNullLiteral hp hr]
  split
  · exact translateNullComparison_paired hp hl
  split
  · exact translateNullComparison_paired hp hr
  · refine .lift_bind fun o o' ho ho' => ?_
    rw [ho] at ho'
    cases ho'
    refine (operandSQL_paired hp hl).bind fun x x' hx => ?_
    refine (operandSQL_paired hp hr).bind fun y y' hy => ?_
    exact .pure (by simp [hx, hy])

theorem translateIn_paired (hl : Alike R l l') (hr : Alike R r r') :
    Agree I (fun c c' => c.subst g = c'.subst h) (t.translateIn lib l r)
      (t'.translateIn lib l' r') := by
  refine .lift_bind fun _ _ _ _ => ?_
  cases hr with
  | @list es es' hes =>
    refine .get_bind fun s s' hs => (operandSQL_paired hp hl).bind fun x x' hx => ?_
    have hempty : es'.isEmpty = es.isEmpty := by cases hes <;> rfl
    rw [hempty, forall₂_isLiteral hes]
    split
    · exact .get_bind fun u u' hu => .set_bind (hp.take hs hu) (.pure rfl)
    split
    · refine (Agree.mapM (R := Alike R) (fun _ _ => operandSQL_paired hp) hes).bind
        fun ms ms' hms => .pure ?_
      simp [hx, map_subst hms]
    · refine .get_bind fun u u' hu => .set_bind (hp.take hs hu) ?_
      refine (Agree.mapM (R := Alike R) (fun _ _ => translateComparison_paired hp hl) hes).bind
        fun ps ps' hps => .pure ?_
      simp [map_subst hps]
  | _ => exact .throw_left

/-! ### String predicates -/

theorem stringPredicate_paired
    {name quoted needle needle' : String} {value value' : Value → Walk Operand}
    (hv : ∀ x y, (b.dialect lib).needle op needle = .ok x →
    (b.dialect lib).needle op needle' = .ok y →
      Agree I (fun o o' => o.subst g = o'.subst h) (value (.string x)) (value' (.string y))) :
    Agree I (fun a a' => a.subst g = a'.subst h)
      (t.stringPredicate op (.column name quoted) needle value)
      (t'.stringPredicate op (.column name quoted) needle' value') := by
  unfold stringPredicate
  rw [hp.dialect, hp.dialect']
  refine .lift_bind fun x y hx hy => (hv x y hx hy).bind fun o o' ho => ?_
  have tree : ∀ xs ys, List.Forall₂ (fun o o' : Operand => o.subst g = o'.subst h) xs ys →
      ∀ p ∈ [(b.dialect lib).stringPredicates.contains, (b.dialect lib).stringPredicates.startsWith,
        (b.dialect lib).stringPredicates.endsWith, (b.dialect lib).stringPredicates.matches],
      (p.tree (.column name quoted) xs).subst g = (p.tree (.column name quoted) ys).subst h := by
    intro xs ys hxy p hmem
    rw [stringPredicates_subst g name quoted xs p hmem,
      stringPredicates_subst h name quoted ys p hmem, map_subst hxy]
  have hone : List.Forall₂ (fun o o' : Operand => o.subst g = o'.subst h) [o] [o'] := .cons ho .nil
  split
  · exact .pure (tree _ _ hone _ (by simp))
  · exact .pure (tree _ _ hone _ (by simp))
  · exact .pure (tree _ _ hone _ (by simp))
  · refine (Agree.mapM (R := fun v w => v = .string x ∧ w = .string y) ?_ ?_).bind
      fun more more' hmore => .pure (tree _ _ (.cons ho hmore) _ (by simp))
    · rintro _ _ ⟨rfl, rfl⟩
      exact hv x y hx hy
    · exact List.forall₂_iff_get.mpr ⟨by simp, by simp⟩
  · exact .throw_left

theorem translateStringPredicate_paired (ha : Alike R n m) (has : List.Forall₂ (Alike R) as as') :
    Agree I (fun a a' => a.subst g = a'.subst h) (t.translateStringPredicate lib op n as)
      (t'.translateStringPredicate lib op m as') := by
  refine .lift_bind fun c c' hc hc' => ?_
  obtain ⟨rfl, name, quoted, rfl⟩ := column_paired hp ha hc hc'
  rcases has with _ | ⟨h1, _ | ⟨h2, h3⟩⟩
  · exact .throw_left
  · cases h1 with
    | ident needle =>
      dsimp only
      split
      · exact .throw_left
      · refine .lift_bind fun o o' ho ho' => stringPredicate_paired hp fun _ _ _ _ => .pure ?_
        obtain ⟨rfl, _, _, rfl⟩ := column_paired hp (.ident needle) ho ho'
        rfl
    | @literal v w _ _ hR =>
      refine .lift_bind fun v' w' hv hw => ?_
      rw [visitLiteral_ok hv, visitLiteral_ok hw]
      cases v with
      | string needle =>
        cases w with
        | string needle' =>
          exact .lift_bind fun _ _ _ _ => stringPredicate_paired hp fun x y hx hy =>
            hp.value (hp.needle hR hx hy)
        | _ => exact .throw_right
      | _ => exact .throw_left
    | _ => exact .throw_left
  · cases h1 <;> exact .throw_left

theorem translateCall_paired (ha : Alike R n m) (has : List.Forall₂ (Alike R) as as') :
    Agree I (fun c c' => c.subst g = c'.subst h) (t.translateCall lib op n as)
      (t'.translateCall lib op m as') := by
  have string : ∀ op, Agree I (fun c c' => c.subst g = c'.subst h)
      (Clause.atom <$> t.translateStringPredicate lib op n as)
      (Clause.atom <$> t'.translateStringPredicate lib op m as') := fun op =>
    (translateStringPredicate_paired hp ha has).map fun _ _ h => congrArg Clause.atom h
  have exist : Agree I (fun c c' => c.subst g = c'.subst h)
      (Clause.atom <$> (liftM (t.translateExists n) : Walk Atom))
      (Clause.atom <$> (liftM (t'.translateExists m) : Walk Atom)) := by
    refine (Agree.lift (V := fun a a' => a.subst g = a'.subst h) fun a a' hx hy => ?_).map
      fun _ _ h => congrArg Clause.atom h
    obtain ⟨c, hc, hx⟩ := except_bind.mp hx
    obtain ⟨c', hc', hy⟩ := except_bind.mp hy
    obtain ⟨rfl, _, _, rfl⟩ := column_paired hp ha hc hc'
    cases hx
    cases hy
    rfl
  unfold translateCall
  cases op <;> first | exact string _ | exact exist | exact .throw_left

/-! ### The walk -/

theorem translateBinary_paired {x x' y y' : Walk Clause} (hl : Alike R l l') (hr : Alike R r r')
    (hx : Agree I (fun c c' => c.subst g = c'.subst h) x x')
    (hy : Agree I (fun c c' => c.subst g = c'.subst h) y y') :
    Agree I (fun c c' => c.subst g = c'.subst h) (t.translateBinary lib op l r x y)
      (t'.translateBinary lib op l' r' x' y') := by
  have logical : ∀ conn, Agree I (fun c c' => c.subst g = c'.subst h) (translateLogical conn x y)
      (translateLogical conn x' y') := fun conn =>
    hx.bind fun c c' hc => hy.bind fun d d' hd => .pure (by simp [hc, hd])
  have compare : ∀ op, Agree I (fun c c' => c.subst g = c'.subst h)
      (Clause.atom <$> t.translateComparison lib op l r)
      (Clause.atom <$> t'.translateComparison lib op l' r') := fun op =>
    (translateComparison_paired hp hl hr).map fun _ _ h => congrArg Clause.atom h
  unfold translateBinary
  cases op <;> first | exact logical _ | exact translateIn_paired hp hl hr | exact compare _

theorem acceptPredicate_paired :
    ∀ (n m : Node) (depth : Nat), Alike R n m →
      Agree I (fun c c' => c.subst g = c'.subst h) (t.acceptPredicate lib n depth)
        (t'.acceptPredicate lib m depth)
  | .nil, _, _, _ => by
    intro _ _ _ _ _ _ _ hx _
    have hx := ok_clause hx
    rw [accept] at hx
    exact absurd hx not_ok_throw
  | .literal .., _, _, _ => .throw_left
  | .list _, _, _, _ => by
    intro _ _ _ _ _ _ _ hx _
    have hx := ok_clause hx
    rw [accept, ok_bind] at hx
    obtain ⟨_, _, -, hx⟩ := hx
    obtain ⟨_, he, -⟩ := ok_map.mp hx
    cases he
  | .ident name, m, depth, ha => by
    cases ha with
    | ident =>
      refine Agree.lift_bind fun o o' ho ho' => Agree.lift_bind fun q q' hq hq' => .pure ?_
      obtain ⟨rfl, _, _, rfl⟩ := column_paired hp (.ident name) ho ho'
      rw [hp.dialect] at hq
      rw [hp.dialect', hq] at hq'
      cases hq'
      rfl
  | .binaryOp op l r, m, depth, ha => by
    cases ha with
    | binaryOp hl hr =>
      intro s s' c c' u u' hI hx hy
      have hx := ok_clause hx
      have hy := ok_clause hy
      rw [accept] at hx hy
      exact translateBinary_paired hp hl hr (acceptPredicate_paired l _ (depth + 1) hl)
        (acceptPredicate_paired r _ (depth + 1) hr) s s' c c' u u' hI (ok_enter hx) (ok_enter hy)
  | .unaryOp op x, m, depth, ha => by
    cases ha with
    | unaryOp hxx =>
      intro s s' c c' u u' hI hx hy
      have hx := ok_clause hx
      have hy := ok_clause hy
      rw [accept] at hx hy
      exact translateUnary_paired (acceptPredicate_paired x _ (depth + 1) hxx)
        s s' c c' u u' hI (ok_enter hx) (ok_enter hy)
  | .call op target args, m, depth, ha => by
    cases ha with
    | call htarget hargs =>
      intro s s' c c' u u' hI hx hy
      have hx := ok_clause hx
      have hy := ok_clause hy
      rw [accept] at hx hy
      exact translateCall_paired hp htarget hargs s s' c c' u u' hI (ok_enter hx) (ok_enter hy)

/-- Two translations that succeed give one clause up to its slots. -/
theorem translateTree_paired (hI : I [] [])
    (ha : Alike R n m) {c c' : Clause} {args args' : List Value}
    (hn : t.translateTree lib n = .ok (c, args)) (hm : t'.translateTree lib m = .ok (c', args')) :
    c.subst g = c'.subst h ∧ I args args' := by
  have hnil : m.isNil = n.isNil := by cases ha <;> rfl
  obtain ⟨_, -, hn⟩ := except_bind.mp hn
  obtain ⟨_, -, hm⟩ := except_bind.mp hm
  rw [hnil] at hm
  split at hn
  · rename_i h0
    rw [if_pos h0] at hm
    cases hn
    cases hm
    exact ⟨rfl, hI⟩
  · rename_i h0
    rw [if_neg h0] at hm
    exact acceptPredicate_paired hp n m 0 ha [] [] c c' args args' hI hn hm

end Walk

end Translator

end GoAtlas.Filter.Sql
