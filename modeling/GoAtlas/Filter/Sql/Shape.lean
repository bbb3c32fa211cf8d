import GoAtlas.Filter.Sql.Binds
import GoAtlas.Filter.Sql.Paired

/-!
# The clause text does not depend on literal values

Two trees have one shape when they differ at most in the values of their non-null literals. Two
successful translations of such trees print the same text: they are a pair of runs over slices of
one length, which is all a placeholder can depend on, with the values of the slots forgotten.
-/

namespace GoAtlas.Filter.Sql

open GoAtlas.Filter GoAtlas.Lib GoAtlas.Lib.Run

mutual

/-- The trees differ at most in the values of non-null literals. -/
def sameShape : Node → Node → Bool
  | .nil, .nil => true
  | .literal v _, .literal w _ => v.isNull == w.isNull
  | .ident a, .ident b => a == b
  | .binaryOp o l r, .binaryOp o' l' r' => o == o' && sameShape l l' && sameShape r r'
  | .unaryOp o x, .unaryOp o' x' => o == o' && sameShape x x'
  | .call o t as, .call o' t' as' => o == o' && sameShape t t' && sameShapes as as'
  | .list es, .list es' => sameShapes es es'
  | _, _ => false

def sameShapes : List Node → List Node → Bool
  | [], [] => true
  | n :: ns, m :: ms => sameShape n m && sameShapes ns ms
  | _, _ => false

end

theorem alike_of_sameShapes {ns ms : List Node}
    (h : ∀ n ∈ ns, ∀ m, sameShape n m = true → Alike (fun v w => v.isNull = w.isNull) n m)
    (hs : sameShapes ns ms = true) : List.Forall₂ (Alike fun v w => v.isNull = w.isNull) ns ms := by
  induction ns generalizing ms with
  | nil =>
    cases ms with
    | nil => exact .nil
    | cons m ms => simp [sameShapes] at hs
  | cons n ns ih =>
    cases ms with
    | nil => simp [sameShapes] at hs
    | cons m ms =>
      rw [List.forall_mem_cons] at h
      rw [sameShapes, Bool.and_eq_true] at hs
      exact .cons (h.1 m hs.1) (ih h.2 hs.2)

theorem alike_of_sameShape {n m : Node} (h : sameShape n m = true) :
    Alike (fun v w => v.isNull = w.isNull) n m := by
  induction n using Node.induct generalizing m <;> cases m <;>
    simp only [sameShape, Bool.false_eq_true, Bool.and_eq_true, beq_iff_eq] at h
  case nil.nil => exact .nil
  case literal.literal => exact .literal h
  case ident.ident => exact h ▸ .ident _
  case binaryOp.binaryOp hl hr _ _ _ =>
    obtain ⟨⟨rfl, hleft⟩, hright⟩ := h
    exact .binaryOp (hl hleft) (hr hright)
  case unaryOp.unaryOp hx _ _ =>
    obtain ⟨rfl, hop⟩ := h
    exact .unaryOp (hx hop)
  case call.call ht hargs _ _ _ =>
    obtain ⟨⟨rfl, htarget⟩, has⟩ := h
    exact .call (ht htarget) (alike_of_sameShapes (fun a ha m => hargs a ha) has)
  case list.list hes _ => exact .list (alike_of_sameShapes (fun e he m => hes e he) h)

namespace Translator

variable {lib : GoLib} {b : Backend} {t : Translator}

theorem ok_value (hi : t.inline = false) {v : Value} (hv : ¬ v.isNull = true) {s u : List Value}
    {o : Operand} (h : Ok (t.value v) s o u) :
    o = .bind (s.length + 1) (t.dialect.placeholder (s.length + 1)) v ∧ u = s ++ [v] := by
  unfold value at h
  simp only [hv, hi, Bool.false_eq_true, if_false] at h
  split at h
  · exact absurd h not_ok_throw
  · rw [ok_bind] at h
    obtain ⟨args, r, hg, h⟩ := h
    obtain ⟨rfl, rfl⟩ := ok_get.mp hg
    rw [ok_bind] at h
    obtain ⟨_, r, hs, h⟩ := h
    obtain ⟨rfl⟩ := ok_set.mp hs
    obtain ⟨rfl, rfl⟩ := ok_pure.mp h
    exact ⟨rfl, rfl⟩

/-- The slots of two trees of one shape differ in their values only. -/
theorem sameShape_paired (hd : t.dialect = b.dialect lib) (hi : t.inline = false) :
    Paired lib b t t (fun v w => v.isNull = w.isNull) (fun s s' => s.length = s'.length)
      (fun n marker _ => .bind n marker .null) (fun n marker _ => .bind n marker .null) where
  config := rfl
  dialect := hd
  dialect' := hd
  isNull h := h
  needle _ _ _ := rfl
  value {v w} h := by
    by_cases hw : w.isNull = true
    · unfold value
      rw [h, if_pos hw, if_pos hw]
      exact .pure rfl
    · intro s s' o o' u u' hl hx hy
      obtain ⟨rfl, rfl⟩ := ok_value hi (h ▸ hw) hx
      obtain ⟨rfl, rfl⟩ := ok_value hi hw hy
      simp [hl]
  take hs hu := by simp [hs, hu]

theorem translateTree_sameText (hd : t.dialect = b.dialect lib) (hi : t.inline = false)
    {n m : Node} (h : sameShape n m = true) {c c' : Clause} {args args' : List Value}
    (hn : t.translateTree lib n = .ok (c, args)) (hm : t.translateTree lib m = .ok (c', args')) :
    c.text = c'.text := by
  obtain ⟨hc, -⟩ := translateTree_paired (sameShape_paired hd hi) rfl (alike_of_sameShape h) hn hm
  rw [← Clause.text_subst (g := fun n marker _ => .bind n marker .null) (fun _ _ _ => rfl) c, hc,
    Clause.text_subst fun _ _ _ => rfl]

end Translator

theorem translate_ok {lib : GoLib} {t : Translator} {n : Node} {clause : String}
    {args : List Value} (h : t.translate lib n = .ok (clause, args)) :
    ∃ tree, Translator.translateTree lib ⟨t.config, t.dialect, false⟩ n = .ok (tree, args) ∧
      clause = tree.text := by
  obtain ⟨p, hp, h⟩ := except_bind.mp h
  cases h
  exact ⟨p.1, hp, rfl⟩

/-! ## Markers, arguments and text -/

/-- In every dialect and configuration the markers of a translated clause are its arguments' slots
in order, each slot printed for the argument at its place, and the text is one for all trees of a
shape. -/
theorem translate_markers_match_args_and_text_is_value_free (lib : GoLib) (b : Backend)
    (config : TranslatorContext) (inline : Bool) :
    let t : Translator := ⟨config, b.dialect lib, inline⟩
    (∀ node clause args, t.translate lib node = .ok (clause, args) →
      markers clause = (List.range' 1 args.length).map b.marker ∧
      ∃ tree, Translator.translateTree lib ⟨config, b.dialect lib, false⟩ node = .ok (tree, args) ∧
        clause = tree.text ∧ tree.binds = args.zipIdx 1) ∧
    (∀ n m clause clause' args args', sameShape n m = true →
      t.translate lib n = .ok (clause, args) → t.translate lib m = .ok (clause', args') →
      clause = clause') := by
  intro t
  constructor
  · intro node clause args h
    obtain ⟨tree, ht, rfl⟩ := translate_ok h
    obtain ⟨hg, hb⟩ := Translator.translateTree_spec (b := b) rfl rfl ht
    refine ⟨?_, tree, ht, rfl, hb⟩
    rw [(hg.woven fun _ => "").reads.markers, hb, slotMarkers, ← List.zipIdx_map_snd 1 args,
      List.map_map]
    rfl
  · intro n m clause clause' args args' h hn hm
    obtain ⟨c, hc, rfl⟩ := translate_ok hn
    obtain ⟨c', hc', rfl⟩ := translate_ok hm
    exact Translator.translateTree_sameText (b := b) rfl rfl h hc hc'

/-- `k in [x, w] || name.endsWith(suffix)`: a rollback, a bound left operand and a needle bound
more than once. -/
def inOrEndsWith (k w : Int) (suffix : String) : Node :=
  .binaryOp .opOr
    (.binaryOp .opIn (.literal (.int64 k) "") (.list [.ident "x", .literal (.int64 w) ""]))
    (.call .opEndsWith (.ident "name") [.literal (.string suffix) ""])

theorem translate_markers_of_inOrEndsWith :
    let t : Translator := ⟨defaultTranslatorOptions, Backend.postgres.dialect refusingLib, false⟩
    let clause := "((($1 = \"x\") OR ($2 = $3))) OR (right(\"name\", length($4)) = $5)"
    t.translate refusingLib (inOrEndsWith 3 4 "z") = .ok (clause,
      [.int64 3, .int64 3, .int64 4, .string "z", .string "z"]) ∧
    markers clause = [some 1, some 2, some 3, some 4, some 5] ∧
    sameShape (inOrEndsWith 3 4 "z") (inOrEndsWith 7 8 "$1 OR ?") = true ∧
    ∀ clause' args', t.translate refusingLib (inOrEndsWith 7 8 "$1 OR ?") = .ok (clause', args') →
      clause = clause' := by
  have thm := translate_markers_match_args_and_text_is_value_free refusingLib .postgres
    defaultTranslatorOptions false
  have hrun : Translator.translate refusingLib
      ⟨defaultTranslatorOptions, Backend.postgres.dialect refusingLib, false⟩
      (inOrEndsWith 3 4 "z") = .ok ("((($1 = \"x\") OR ($2 = $3))) OR " ++
        "(right(\"name\", length($4)) = $5)",
      [.int64 3, .int64 3, .int64 4, .string "z", .string "z"]) := by rfl
  refine ⟨hrun, (thm.1 _ _ _ hrun).1, by decide, fun clause' args' h => ?_⟩
  exact thm.2 _ _ _ _ _ _ (by decide) hrun h

end GoAtlas.Filter.Sql
