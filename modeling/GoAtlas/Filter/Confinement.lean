import GoAtlas.Filter.Evaluator

/-!
# The allow-list confines the evaluator

Two evaluations of one filter over two data maps. The walk reads the data in two places, a field and
`has()`, and both ask the allow-list first. So the walks over maps that agree on the allowed fields
are the same function of the depth and of the operations counted before, whatever the operators
around the fields make of them.
-/

namespace GoAtlas.Filter

open GoAtlas.Lib

/-- The maps have the same value, or none, at the mapped path of every allowed field. -/
def AgreeOnAllowed (config : TranslatorContext) (data data' : List (String × Value)) : Prop :=
  ∀ field, config.isFieldAllowed field = true →
    walkField data (config.applyFieldMapping field) = walkField data'
    (config.applyFieldMapping field)

namespace Evaluation

variable {lib : GoLib} {config : TranslatorContext} {data data' : List (String × Value)}

theorem visitIdent_congr (h : AgreeOnAllowed config data data') (name : String) :
    visitIdent ⟨config, data⟩ name = visitIdent ⟨config, data'⟩ name := by
  unfold visitIdent
  by_cases hallowed : config.isFieldAllowed name = true
  · simp only [lookupField, h name hallowed]
    rfl
  · simp only [hallowed, Bool.not_false, if_true]
    rfl

theorem evalHas_congr (h : AgreeOnAllowed config data data') (target : Node) :
    evalHas ⟨config, data⟩ target = evalHas ⟨config, data'⟩ target := by
  unfold evalHas
  split
  · rename_i name
    by_cases hallowed : config.isFieldAllowed name = true
    · simp only [fieldExists, h name hallowed]
    · simp only [hallowed, Bool.not_false, if_true]
  · rfl

theorem evalCall_congr (h : AgreeOnAllowed config data data') (op : Operator) (t : Node)
    (target : Eval Value) (args : List (Eval Value)) :
    evalCall lib ⟨config, data⟩ op t target args =
      evalCall lib ⟨config, data'⟩ op t target args := by
  unfold evalCall
  split
  · rfl
  · cases op <;> first | rfl | exact evalHas_congr h t

theorem visits_congr {ns : List Node} (h : ∀ n ∈ ns, ∀ depth,
    accept lib ⟨config, data⟩ n depth = accept lib ⟨config, data'⟩ n depth) (depth : Nat) :
    visits lib ⟨config, data⟩ ns depth = visits lib ⟨config, data'⟩ ns depth := by
  induction ns with
  | nil => rw [visits, visits]
  | cons n ns ih =>
    rw [List.forall_mem_cons] at h
    rw [visits, visits, h.1, ih h.2]

theorem accept_congr (h : AgreeOnAllowed config data data') (n : Node) :
    (∀ depth, accept lib ⟨config, data⟩ n depth = accept lib ⟨config, data'⟩ n depth) ∧
      ∀ depth, members lib ⟨config, data⟩ n depth = members lib ⟨config, data'⟩ n depth := by
  induction n using Node.induct with
  | nil => simp [accept, members]
  | literal v text =>
    refine ⟨fun depth => ?_, fun depth => by simp only [members]⟩
    rw [accept, accept]
    rfl
  | ident name =>
    refine ⟨fun depth => ?_, fun depth => by simp only [members]⟩
    rw [accept, accept, visitIdent_congr h]
  | binaryOp op l r hl hr =>
    refine ⟨fun depth => ?_, fun depth => by simp only [members]⟩
    rw [accept, accept, hl.1, hr.1, hr.2]
    rfl
  | unaryOp op x hx =>
    refine ⟨fun depth => ?_, fun depth => by simp only [members]⟩
    rw [accept, accept, hx.1]
    rfl
  | call op t args ht hargs =>
    refine ⟨fun depth => ?_, fun depth => by simp only [members]⟩
    rw [accept, accept, ht.1, visits_congr fun a ha => (hargs a ha).1, evalCall_congr h]
    rfl
  | list es hes =>
    have hvisits := visits_congr fun e he => (hes e he).1
    refine ⟨fun depth => ?_, fun depth => by rw [members, members, hvisits]⟩
    rw [accept, accept, hvisits]
    rfl

end Evaluation

/-- No filter can tell two data maps apart that agree on the allowed fields: neither by its truth
value nor by its error. -/
theorem evaluate_confined (lib : GoLib) (config : TranslatorContext) (node : Node)
    (data data' : List (String × Value)) (h : AgreeOnAllowed config data data') :
    evaluate lib config node data = evaluate lib config node data' := by
  unfold evaluate
  rw [(Evaluation.accept_congr h node).1]

def confinedConfig : TranslatorContext :=
  { defaultTranslatorOptions with allowedFields := some ⟨[("id", ())], by decide⟩ }

theorem evaluate_confined_secret :
    evaluate refusingLib confinedConfig
      (.binaryOp .opEqual (.ident "secret") (.literal (.int64 1) ""))
        [("id", .int64 7), ("secret", .int64 1)] =
      evaluate refusingLib confinedConfig
        (.binaryOp .opEqual (.ident "secret") (.literal (.int64 1) ""))
        [("id", .int64 7)] := by
  refine evaluate_confined _ _ _ _ _ fun field hallowed => ?_
  have hid : field = "id" := by
    by_contra hne
    simp [confinedConfig, TranslatorContext.isFieldAllowed, ImmutableMap.contains, ImmutableMap.get,
      List.lookup_cons, beq_eq_false_iff_ne.mpr hne] at hallowed
  rw [hid]
  rfl

end GoAtlas.Filter
