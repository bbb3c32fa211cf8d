import GoAtlas.Filter.Sql.Shape

/-!
# The inline clause is the parameterised one with its markers filled in

`TranslateInline` and `Translate` are a pair of runs over one tree: where the one binds a literal,
the other prints it. So the inline clause is the parameterised clause with the value of each slot
in its place, and every argument left in the slice is one that the dialect can print.
-/

namespace GoAtlas.Filter.Sql

open GoAtlas.Filter GoAtlas.Lib GoAtlas.Lib.Run

theorem alike_refl (n : Node) : Alike Eq n n := by
  have hlist : ∀ {ns : List Node}, (∀ n ∈ ns, Alike Eq n n) → List.Forall₂ (Alike Eq) ns ns :=
    fun h => List.forall₂_same.mpr h
  induction n using Node.induct with
  | nil => exact .nil
  | literal v text => exact .literal rfl
  | ident name => exact .ident name
  | binaryOp op l r hl hr => exact .binaryOp hl hr
  | unaryOp op x hx => exact .unaryOp hx
  | call op t args ht hargs => exact .call ht (hlist hargs)
  | list es hes => exact .list (hlist hes)

def literalText (d : Dialect) (v : Value) : String := (d.formatLiteral v).toOption.getD ""

namespace Translator

variable {lib : GoLib} {b : Backend} {config : TranslatorContext}

theorem inline_paired :
    Paired lib b ⟨config, b.dialect lib, false⟩ ⟨config, b.dialect lib, true⟩ Eq
      (fun s _ => ∀ v ∈ s, ∃ text, (b.dialect lib).formatLiteral v = .ok text)
      (fun _ _ v => .inline v (literalText (b.dialect lib) v)) .bind where
  config := rfl
  dialect := rfl
  dialect' := rfl
  isNull h := by rw [h]
  needle h hx hy := by
    cases h
    rw [hx] at hy
    cases hy
    rfl
  value {v w} h := by
    cases h
    by_cases hv : v.isNull = true
    · unfold value
      rw [if_pos hv, if_pos hv]
      exact .pure rfl
    · intro s s' o o' u u' hs hx hy
      obtain ⟨rfl, rfl⟩ := ok_value rfl hv hx
      simp only [value, hv, Bool.false_eq_true, if_false, if_true] at hy
      obtain ⟨text, r, hlit, hy⟩ := ok_bind.mp hy
      obtain ⟨htext, rfl⟩ := ok_lift.mp hlit
      obtain ⟨rfl, rfl⟩ := ok_pure.mp hy
      refine ⟨by simp [literalText, htext, Except.toOption], fun x hx => ?_⟩
      rcases List.mem_append.mp hx with hx | hx
      · exact hs x hx
      · rw [List.mem_singleton.mp hx]
        exact ⟨text, htext⟩
  take _ hu v hv := hu v (List.mem_of_mem_take hv)

end Translator

/-- Whenever both translations of a tree succeed, the inline clause is the parameterised one with
its markers, which are as many as the arguments and numbered with them, replaced one by one by the
dialect's text of the argument at that place. -/
theorem translateInline_eq_fillMarkers (lib : GoLib) (b : Backend) (config : TranslatorContext)
    (mode : Bool) (node : Node) (clause inlined : String) (args : List Value)
    (h : Translator.translate lib ⟨config, b.dialect lib, mode⟩ node = .ok (clause, args))
    (hi : Translator.translateInline lib ⟨config, b.dialect lib, mode⟩ node = .ok inlined) :
    ∃ literals, List.Forall₂ (fun v text => (b.dialect lib).formatLiteral v = .ok text)
      args literals ∧
      markers clause = (List.range' 1 args.length).map b.marker ∧
      inlined = fillMarkers literals clause := by
  obtain ⟨tree, ht, rfl⟩ := translate_ok h
  obtain ⟨⟨tree', args'⟩, ht', he⟩ := except_bind.mp hi
  cases he
  obtain ⟨hg, hb⟩ := Translator.translateTree_spec (b := b) rfl rfl ht
  obtain ⟨hsubst, hargs⟩ := Translator.translateTree_paired Translator.inline_paired (by simp)
    (alike_refl node) ht ht'
  refine ⟨args.map (literalText (b.dialect lib)), ?_, ?_, ?_⟩
  · rw [List.forall₂_map_right_iff, List.forall₂_same]
    intro v hv
    obtain ⟨text, htext⟩ := hargs v hv
    simp [literalText, htext, Except.toOption]
  · rw [(hg.woven fun _ => "").reads.markers, hb, slotMarkers, ← List.zipIdx_map_snd 1 args,
      List.map_map]
    rfl
  · have hfill := (hg.woven (literalText (b.dialect lib))).fillMarkers
    have hslots : tree.binds.map (fun p => literalText (b.dialect lib) p.1) =
        args.map (literalText (b.dialect lib)) := by
      rw [hb, ← List.zipIdx_map_fst 1 args, List.map_map]
      simp [Function.comp_def]
    rw [hslots, hsubst, Clause.text_subst fun _ _ _ => rfl] at hfill
    exact hfill.symm

theorem translateInline_eq_fillMarkers_inOrEndsWith :
    ∃ literals, List.Forall₂
      (fun v text => (Backend.postgres.dialect refusingLib).formatLiteral v = .ok text)
        [.int64 3, .int64 3, .int64 4, .string "z", .string "z"] literals ∧
      "(((3 = \"x\") OR (3 = 4))) OR (right(\"name\", length(E\'z\')) = E\'z\')" =
        fillMarkers literals
          "((($1 = \"x\") OR ($2 = $3))) OR (right(\"name\", length($4)) = $5)" := by
  obtain ⟨literals, hliterals, -, hfill⟩ := translateInline_eq_fillMarkers refusingLib .postgres
    defaultTranslatorOptions false (inOrEndsWith 3 4 "z") _ _ _ rfl rfl
  exact ⟨literals, hliterals, hfill⟩

end GoAtlas.Filter.Sql
