import GoAtlas.Filter.Sql.Markers
import GoAtlas.Filter.Sql.Translator

/-!
# Bind slots and arguments

A translation that succeeds prints one marker per argument, in the order of the argument slice,
and nothing of the literal values reaches its text. Each function of the walk extends the slice by
the values of the bind slots it printed (`Extends`); the rollbacks of `translateIn` give back
exactly what the discarded rendering added. That the text carries no value is a statement about
two runs over trees of one shape.
-/

namespace GoAtlas.Filter.Sql

open GoAtlas.Filter GoAtlas.Lib GoAtlas.Lib.Run

/-! ## Column names carry no marker -/

theorem isIdentChar_clean {c : Char} (h : isIdentChar c = true) : c ≠ '$' ∧ c ≠ '?' := by
  constructor <;> rintro rfl <;> revert h <;> decide

theorem isIdentSegment_clean {s : String} (h : isIdentSegment s = true) : Clean s := by
  have hall : ∀ c ∈ s.toList, isIdentChar c = true := by
    intro c hc
    unfold isIdentSegment at h
    split at h
    · cases h
    · rename_i d ds hs
      simp only [Bool.and_eq_true, List.all_eq_true] at h
      rw [hs, List.mem_cons] at hc
      rcases hc with rfl | hc
      · simp [isIdentChar, h.1]
      · exact h.2 c hc
  exact ⟨fun hm => (isIdentChar_clean (hall _ hm)).1 rfl,
    fun hm => (isIdentChar_clean (hall _ hm)).2 rfl⟩

theorem clean_intercalate {sep : String} (hs : Clean sep) {l : List String}
    (h : ∀ x ∈ l, Clean x) : Clean (sep.intercalate l) := by
  induction l with
  | nil => simpa using (show Clean "" by decide)
  | cons x xs ih =>
    cases xs with
    | nil => simpa using h x (by simp)
    | cons y ys =>
      rw [String.intercalate_cons_cons]
      exact ((h x (by simp)).append hs).append (ih (fun z hz => h z (by simp [hz])))

theorem intercalate_splitDots (s : String) : ".".intercalate (splitDots s) = s := by
  rw [← String.toList_inj, String.toList_intercalate]
  simp only [splitDots, List.map_map, Function.comp_def, String.toList_ofList, List.map_id']
  exact List.intercalate_splitOn _

theorem validateIdent_ok {name : String} (h : validateIdent name = .ok ()) :
    ∀ s ∈ splitDots name, Clean s := by
  unfold validateIdent at h
  split at h
  · cases h
  · split at h
    · rename_i hall
      rw [List.all_eq_true] at hall
      exact fun s hs => isIdentSegment_clean (hall s hs)
    · cases h

theorem quoteIdent_clean {lib : GoLib} {b : Backend} {name quoted : String}
    (h : (b.dialect lib).quoteIdent name = .ok quoted) : Clean quoted := by
  have qualified : ∀ {q : String}, Clean q → quoteQualified name q = .ok quoted → Clean quoted := by
    intro q hq hn
    obtain ⟨_, hv, he⟩ := except_bind.mp hn
    cases he
    refine clean_intercalate (by decide) fun x hx => ?_
    obtain ⟨s, hs, rfl⟩ := List.mem_map.mp hx
    exact (hq.append (validateIdent_ok hv s hs)).append hq
  cases b with
  | postgres => exact qualified (by decide) h
  | mariadb => exact qualified (by decide) h
  | clickhouse =>
    obtain ⟨_, hv, he⟩ := except_bind.mp h
    cases he
    have hname : Clean name := by
      rw [← intercalate_splitDots name]
      exact clean_intercalate (by decide) (validateIdent_ok hv)
    exact ((show Clean "`" by decide).append hname).append (by decide)

/-! ## Extending the argument slice -/

/-- The slice grew by the values of the slots `bs`, numbered on from its length. -/
def Extends (s : List Value) (bs : List (Value × Nat)) (s' : List Value) : Prop :=
  ∃ vs, s' = s ++ vs ∧ bs = vs.zipIdx (s.length + 1)

theorem Extends.refl (s : List Value) : Extends s [] s := ⟨[], by simp, rfl⟩

theorem Extends.trans {s u s' : List Value} {bs cs : List (Value × Nat)} (h₁ : Extends s bs u)
    (h₂ : Extends u cs s') : Extends s (bs ++ cs) s' := by
  obtain ⟨vs, rfl, rfl⟩ := h₁
  obtain ⟨ws, rfl, rfl⟩ := h₂
  refine ⟨vs ++ ws, by simp, ?_⟩
  rw [List.zipIdx_append, List.length_append]
  congr 2
  omega

theorem Extends.take {s s' : List Value} {bs : List (Value × Nat)} (h : Extends s bs s') :
    s'.take s.length = s := by
  obtain ⟨vs, rfl, -⟩ := h
  simp

theorem Extends.eq_of_nil {s s' : List Value} (h : Extends s [] s') : s' = s := by
  obtain ⟨vs, rfl, hvs⟩ := h
  cases vs with
  | nil => simp
  | cons v vs => cases hvs

namespace Translator

section Rules

variable {α β : Type} {good : α → Prop} {binds : α → List (Value × Nat)} {good' : β → Prop}
  {binds' : β → List (Value × Nat)}

/-- What every rendering step does: a well-formed result whose slots extend the slice. -/
def Renders (good : α → Prop) (binds : α → List (Value × Nat)) (x : Walk α) : Prop :=
  ∀ s a s', Ok x s a s' → good a ∧ Extends s (binds a) s'

/-- The rest of a step that began with the slice `start` and printed the slots `bs` so far. -/
def Continues (start : List Value) (bs : List (Value × Nat)) (good : α → Prop)
    (binds : α → List (Value × Nat)) (x : Walk α) : Prop :=
  ∀ s a s', Extends start bs s → Ok x s a s' → good a ∧ Extends start (binds a) s'

namespace Continues

variable {start : List Value} {bs : List (Value × Nat)}

theorem pure {a : α} (hg : good a) (hb : binds a = bs) :
    Continues start bs good binds (pure a) := by
  intro s a' s' he h
  obtain ⟨rfl, rfl⟩ := ok_pure.mp h
  exact ⟨hg, hb ▸ he⟩

theorem throw {e : Err} : Continues start bs good binds (throw e) :=
  fun _ _ _ _ h => absurd h not_ok_throw

theorem lift {x : Except Err α} (h : ∀ a, x = .ok a → good a ∧ binds a = bs) :
    Continues start bs good binds (liftM x : Walk α) := by
  intro s a s' he hx
  obtain ⟨ha, rfl⟩ := ok_lift.mp hx
  exact ⟨(h a ha).1, (h a ha).2 ▸ he⟩

theorem lift_bind {x : Except Err β} {f : β → Walk α}
    (h : ∀ a, x = .ok a → Continues start bs good binds (f a)) :
    Continues start bs good binds (liftM x >>= f) := by
  intro s a s' he hx
  obtain ⟨b, u, hlift, hx⟩ := ok_bind.mp hx
  obtain ⟨hb, rfl⟩ := ok_lift.mp hlift
  exact h b hb s a s' he hx

theorem bind {x : Walk β} {f : β → Walk α} (hx : Renders good' binds' x)
    (hf : ∀ b, good' b → Continues start (bs ++ binds' b) good binds (f b)) :
    Continues start bs good binds (x >>= f) := by
  intro s a s' he h
  obtain ⟨b, u, hb, h⟩ := ok_bind.mp h
  obtain ⟨hg, hu⟩ := hx s b u hb
  exact hf b hg u a s' (he.trans hu) h

theorem last {x : Walk α} (hx : Renders good binds x) : Continues start [] good binds x := by
  intro s a s' he h
  obtain ⟨hg, hs⟩ := hx s a s' h
  exact ⟨hg, he.trans hs⟩

theorem get_bind {f : List Value → Walk α} (h : Continues start [] good binds (f start)) :
    Continues start [] good binds (get >>= f) := by
  intro s a s' he hx
  obtain ⟨_, _, hg, hx⟩ := ok_bind.mp hx
  obtain ⟨rfl, rfl⟩ := ok_get.mp hg
  obtain rfl := he.eq_of_nil
  exact h _ a s' he hx

theorem rollback {x : Walk α} (h : Renders good binds x) :
    Continues start bs good binds (do set ((← get).take start.length); x) := by
  intro s a s' he hx
  obtain ⟨_, _, hg, hx⟩ := ok_bind.mp hx
  obtain ⟨rfl, rfl⟩ := ok_get.mp hg
  obtain ⟨_, _, hset, hx⟩ := ok_bind.mp hx
  obtain rfl := ok_set.mp hset
  rw [he.take] at hx
  exact h start a s' hx

end Continues

namespace Renders

theorem of {x : Walk α} (h : ∀ start, Continues start [] good binds x) : Renders good binds x :=
  fun s a s' hx => h s s a s' (.refl s) hx

theorem map {x : Walk β} {f : β → α} (hx : Renders good' binds' x)
    (hf : ∀ b, good' b → good (f b) ∧ binds (f b) = binds' b) : Renders good binds (f <$> x) := by
  rw [map_eq_pure_bind]
  exact .of fun _ => .bind hx fun b hb => .pure (hf b hb).1 (hf b hb).2

theorem mapM {f : β → Walk α} (hf : ∀ x, Renders good binds (f x)) (xs : List β) :
    Renders (fun ys => ∀ y ∈ ys, good y) (fun ys => ys.flatMap binds) (xs.mapM f) := by
  induction xs with
  | nil =>
    rw [List.mapM_nil]
    exact .of fun _ => .pure (by simp) rfl
  | cons x xs ih =>
    rw [List.mapM_cons]
    exact .of fun _ => .bind (hf x) fun y hy => .bind ih fun ys hys =>
      .pure (List.forall_mem_cons.mpr ⟨hy, hys⟩) rfl

end Renders

end Rules

section Spec

variable {lib : GoLib} {b : Backend} {t : Translator}

theorem good_getD {xs : List Operand} (h : ∀ x ∈ xs, x.Good lib b) (i : Nat) :
    (xs.getD i .null).Good lib b := by
  rw [List.getD_eq_getElem?_getD]
  cases hx : xs[i]? with
  | none => trivial
  | some x => exact h x (List.mem_of_getElem? hx)

theorem stringPredicates_good {c : Operand} (xs : List Operand) (hc : c.Good lib b)
    (hx : ∀ x ∈ xs, x.Good lib b) :
    let tpl := (b.dialect lib).stringPredicates
    (tpl.contains.tree c xs).Good lib b ∧ (tpl.startsWith.tree c xs).Good lib b ∧
      (tpl.endsWith.tree c xs).Good lib b ∧ (tpl.matches.tree c xs).Good lib b := by
  have h0 : (xs.headD .null).Good lib b := by
    cases xs with
    | nil => trivial
    | cons x xs => exact hx x (by simp)
  have hz : zero.Good lib b := show Clean "0" by decide
  have ho : one.Good lib b := show Clean "1" by decide
  cases b with
  | postgres =>
    exact ⟨⟨⟨hc, h0⟩, hz⟩, ⟨hc, h0⟩, ⟨⟨hc, good_getD hx 0⟩, good_getD hx 1⟩, ⟨hc, h0⟩⟩
  | mariadb =>
    exact ⟨⟨⟨h0, hc⟩, hz⟩, ⟨⟨h0, hc⟩, ho⟩,
      ⟨⟨hc, good_getD hx 0⟩, ⟨hc, good_getD hx 1⟩, good_getD hx 2⟩, ⟨hc, h0⟩⟩
  | clickhouse => exact ⟨⟨⟨hc, h0⟩, hz⟩, ⟨hc, h0⟩, ⟨hc, h0⟩, ⟨hc, h0⟩⟩

theorem translateUnary_spec {op : Operator} {operand : Walk Clause}
    (hx : Renders (Clause.Good lib b) Clause.binds operand) :
    Renders (Clause.Good lib b) Clause.binds (translateUnary op operand) := by
  unfold translateUnary
  split
  · exact .map hx fun _ hc => ⟨hc, rfl⟩
  · exact .of fun _ => .throw

section

variable (hd : t.dialect = b.dialect lib)

include hd

theorem column_spec {n : Node} {o : Operand} (h : t.column n = .ok o) :
    o.Good lib b ∧ o.binds = [] := by
  unfold column at h
  split at h
  · unfold visitIdent at h
    split at h
    · cases h
    · obtain ⟨q, hq, h⟩ := except_bind.mp h
      cases h
      exact ⟨quoteIdent_clean (hd ▸ hq), rfl⟩
  · cases h

theorem stringPredicate_spec {op : Operator} {c : Operand} {needle : String}
    {value : Value → Walk Operand} (hc : c.Good lib b) (hb : c.binds = [])
    (hv : ∀ v, Renders (Operand.Good lib b) Operand.binds (value v)) :
    Renders (Atom.Good lib b) Atom.binds (t.stringPredicate op c needle value) := by
  refine .of fun start => .lift_bind fun nd _ => ?_
  rw [hd]
  refine .bind (hv _) fun x hx => ?_
  have single := stringPredicates_good [x] hc (by simpa using hx)
  have all := fun more hmore => stringPredicates_good (x :: more) hc
    (List.forall_mem_cons.mpr ⟨hx, hmore⟩)
  generalize (b.dialect lib).stringPredicates = tpl at single all ⊢
  split
  · refine .pure single.1 ?_
    rw [tpl.contains.tree_binds c [x] hb (by rw [tpl.contains_operands]; rfl)]
    simp
  · refine .pure single.2.1 ?_
    rw [tpl.startsWith.tree_binds c [x] hb (by rw [tpl.startsWith_operands]; rfl)]
    simp
  · refine .pure single.2.2.2 ?_
    rw [tpl.matches.tree_binds c [x] hb (by rw [tpl.matches_operands]; rfl)]
    simp
  · intro s a s' he h
    obtain ⟨more, w, hm, h⟩ := ok_bind.mp h
    obtain ⟨rfl, rfl⟩ := ok_pure.mp h
    obtain ⟨hgm, hem⟩ := Renders.mapM hv _ _ _ _ hm
    have hlen : (x :: more).length = tpl.endsWith.operands := by
      rw [tpl.endsWith_operands, List.length_cons, ok_mapM_length hm, List.length_replicate]
      omega
    refine ⟨(all more hgm).2.2.1, ?_⟩
    rw [tpl.endsWith.tree_binds c _ hb hlen]
    exact he.trans hem
  · exact .throw

theorem predicateOf_spec {n : Node} {visit : Walk Result}
    (hv : ∀ s c s', Ok visit s (.clause c) s' → c.Good lib b ∧ Extends s c.binds s') :
    Renders (Clause.Good lib b) Clause.binds (t.predicateOf n visit) := by
  refine .of fun start => ?_
  unfold predicateOf
  split
  · refine .lift_bind fun o hcol => .lift_bind fun lit hlit => ?_
    obtain ⟨hg, hb⟩ := column_spec hd hcol
    have hclean : Clean lit := by
      rw [hd] at hlit
      cases b <;> cases hlit <;> decide
    exact .pure ⟨hg, hclean⟩ (by simp [hb])
  · exact .throw
  · exact .last fun s c s' h => hv s c s' (ok_clause h)

variable (hi : t.inline = false)

include hi

theorem value_spec (v : Value) : Renders (Operand.Good lib b) Operand.binds (t.value v) := by
  intro s o s' h
  unfold value at h
  split at h
  · obtain ⟨rfl, rfl⟩ := ok_pure.mp h
    exact ⟨trivial, .refl s⟩
  · simp only [hi, Bool.false_eq_true, if_false] at h
    split at h
    · exact absurd h not_ok_throw
    · obtain ⟨args, u, hg, h⟩ := ok_bind.mp h
      obtain ⟨rfl, rfl⟩ := ok_get.mp hg
      obtain ⟨_, u, hs, h⟩ := ok_bind.mp h
      obtain ⟨rfl⟩ := ok_set.mp hs
      obtain ⟨rfl, rfl⟩ := ok_pure.mp h
      exact ⟨by rw [hd]; rfl, [v], rfl, rfl⟩

theorem operandSQL_spec (n : Node) :
    Renders (Operand.Good lib b) Operand.binds (t.operandSQL n) := by
  refine .of fun start => ?_
  unfold operandSQL
  split
  · exact .lift fun o => column_spec hd
  · exact .lift_bind fun v _ => .last (value_spec hd hi v)
  · refine .lift fun o ho => ?_
    obtain ⟨col, hc, ho⟩ := except_bind.mp ho
    cases ho
    obtain ⟨hg, hb⟩ := column_spec hd hc
    refine ⟨?_, t.dialect.sizeExpr_binds col hb⟩
    rw [hd]
    cases b with
    | postgres | mariadb => exact hg
    | clickhouse => exact ⟨⟨hg, show Clean _ by decide⟩, hg, hg⟩
  · exact .throw

theorem translateNullComparison_spec (op : Operator) (n : Node) :
    Renders (Atom.Good lib b) Atom.binds (t.translateNullComparison op n) := by
  refine .of fun start => .bind (operandSQL_spec hd hi n) fun o ho => ?_
  split
  · exact .pure ho rfl
  · exact .pure ho rfl
  · exact .throw

theorem translateComparison_spec (op : Operator) (l r : Node) :
    Renders (Atom.Good lib b) Atom.binds (t.translateComparison lib op l r) := by
  refine .of fun start => .lift_bind fun _ _ => ?_
  split
  · exact .last (translateNullComparison_spec hd hi op l)
  split
  · exact .last (translateNullComparison_spec hd hi op r)
  · exact .lift_bind fun _ _ => .bind (operandSQL_spec hd hi l) fun x hx =>
      .bind (operandSQL_spec hd hi r) fun y hy => .pure ⟨hx, hy⟩ rfl

theorem translateIn_spec (l r : Node) :
    Renders (Clause.Good lib b) Clause.binds (t.translateIn lib l r) := by
  refine .of fun start => .lift_bind fun _ _ => ?_
  split
  · refine .get_bind (.bind (operandSQL_spec hd hi l) fun x hx => ?_)
    split
    · exact .rollback (.of fun _ => .pure ⟨show Clean "1" by decide, show Clean "0" by decide⟩ rfl)
    split
    · exact .bind (.mapM (operandSQL_spec hd hi) _) fun ms hms => .pure ⟨hx, hms⟩ rfl
    · -- the comparisons are rendered from the slice the left operand started with
      exact .rollback (.of fun _ => .bind (.mapM (translateComparison_spec hd hi .opEqual l) _)
        fun ps hps => .pure hps rfl)
  · exact .throw

theorem translateStringPredicate_spec (op : Operator) (target : Node) (args : List Node) :
    Renders (Atom.Good lib b) Atom.binds (t.translateStringPredicate lib op target args) := by
  refine .of fun start => .lift_bind fun c hcol => ?_
  obtain ⟨hg, hb⟩ := column_spec hd hcol
  split
  · split
    · exact .throw
    · refine .lift_bind fun nd hncol => .last (stringPredicate_spec hd hg hb fun _ => ?_)
      obtain ⟨hgn, hbn⟩ := column_spec hd hncol
      exact .of fun _ => .pure hgn hbn
  · refine .lift_bind fun v _ => ?_
    split
    · exact .lift_bind fun _ _ => .last (stringPredicate_spec hd hg hb (value_spec hd hi))
    · exact .throw
  · exact .throw
  · exact .throw

theorem translateCall_spec (op : Operator) (target : Node) (args : List Node) :
    Renders (Clause.Good lib b) Clause.binds (t.translateCall lib op target args) := by
  have string : ∀ op, Renders (Clause.Good lib b) Clause.binds
      (Clause.atom <$> t.translateStringPredicate lib op target args) := fun op =>
    .map (translateStringPredicate_spec hd hi op target args) fun _ ha => ⟨ha, rfl⟩
  have exist : Renders (Clause.Good lib b) Clause.binds
      (Clause.atom <$> (liftM (t.translateExists target) : Walk Atom)) := by
    refine .map (.of fun _ => .lift fun a ha => ?_) fun _ ha => ⟨ha, rfl⟩
    obtain ⟨o, hcol, ha⟩ := except_bind.mp ha
    cases ha
    exact column_spec hd hcol
  unfold translateCall
  refine .of fun start => ?_
  split
  iterate 4 exact .last (string _)
  iterate 2 exact .last exist
  iterate 2 exact .throw

theorem translateBinary_spec {op : Operator} {l r : Node} {left right : Walk Clause}
    (hl : Renders (Clause.Good lib b) Clause.binds left)
    (hr : Renders (Clause.Good lib b) Clause.binds right) :
    Renders (Clause.Good lib b) Clause.binds (t.translateBinary lib op l r left right) := by
  have logical : ∀ conn, Renders (Clause.Good lib b) Clause.binds
    (translateLogical conn left right) :=
    fun conn => .of fun _ => .bind hl fun x hx => .bind hr fun y hy => .pure ⟨hx, hy⟩ rfl
  unfold translateBinary
  split
  · exact logical _
  · exact logical _
  · exact translateIn_spec hd hi l r
  · exact .map (translateComparison_spec hd hi _ l r) fun _ ha => ⟨ha, rfl⟩

theorem accept_spec : ∀ (n : Node) (depth : Nat) (s : List Value) (c : Clause) (s' : List Value),
      Ok (t.accept lib n depth) s (.clause c) s' → c.Good lib b ∧ Extends s c.binds s'
  | .nil, _, s, c, s', h => absurd h not_ok_throw
  | .literal v _, _, s, c, s', h => by
    obtain ⟨_, he, -⟩ := ok_map.mp h
    cases he
  | .ident name, _, s, c, s', h => by
    obtain ⟨_, he, -⟩ := ok_map.mp h
    cases he
  | .list es, depth, s, c, s', h => by
    rw [accept, ok_bind] at h
    obtain ⟨_, _, -, h⟩ := h
    obtain ⟨_, he, -⟩ := ok_map.mp h
    cases he
  | .call op target args, depth, s, c, s', h => by
    rw [accept] at h
    exact translateCall_spec hd hi op target args _ _ _ (ok_enter h)
  | .unaryOp op x, depth, s, c, s', h => by
    rw [accept] at h
    exact translateUnary_spec (predicateOf_spec hd (accept_spec x (depth + 1))) _ _ _ (ok_enter h)
  | .binaryOp op l r, depth, s, c, s', h => by
    rw [accept] at h
    exact translateBinary_spec hd hi (predicateOf_spec hd (accept_spec l (depth + 1)))
      (predicateOf_spec hd (accept_spec r (depth + 1))) _ _ _ (ok_enter h)

/-- A translation in placeholder mode: a well-formed clause whose slots are the arguments. -/
theorem translateTree_spec {n : Node} {c : Clause} {args : List Value}
    (h : t.translateTree lib n = .ok (c, args)) :
    c.Good lib b ∧ c.binds = args.zipIdx 1 := by
  obtain ⟨_, -, h⟩ := except_bind.mp h
  split at h
  · cases h
    exact ⟨⟨show Clean "1" by decide, show Clean "1" by decide⟩, rfl⟩
  · obtain ⟨hg, vs, hvs, hb⟩ := predicateOf_spec hd (accept_spec hd hi n 0) [] c args h
    rw [List.nil_append] at hvs
    exact ⟨hg, by rw [hb, hvs]; rfl⟩

end

end Spec

end Translator

end GoAtlas.Filter.Sql
