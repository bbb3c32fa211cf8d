import Mathlib.Data.List.Nodup
import Mathlib.Data.Fintype.Basic

/-!
# Messages and their schemas

A schema has finitely many message types, which may refer to each other in cycles. A message is its
fields by name; `unset` is a field that `protoreflect` calls not populated. A map key is its string
(`MapKey.String`). `google.protobuf.Struct`, `ListValue` and `Value` are the dynamic types. A scalar
is an arbitrary value; a group, which the package never descends into, is one too.
-/

namespace GoAtlas.FieldMask

/-- `google.api.field_behavior`. -/
inductive Behavior where
  | unspecified | optional | required | outputOnly | inputOnly | immutable | unorderedList
  | nonEmptyDefault | identifier
  deriving DecidableEq, Repr

inductive Card where
  | singular | list | map
  deriving DecidableEq, Repr

inductive Dynamic where
  | struct | listValue | value
  deriving DecidableEq, Repr

inductive Kind (τ : Type) where
  | scalar
  | message (t : τ)
  | dynamic (d : Dynamic)
  deriving DecidableEq, Repr

structure FieldDesc (σ τ : Type) where
  name : String
  card : Card
  kind : Kind τ
  behaviors : List Behavior
  /-- `HasPresence` of a singular scalar. -/
  presence : Bool
  /-- The default of a scalar, and the empty `google.protobuf.Value`. -/
  default : σ
  /-- The index of the containing oneof. -/
  oneof : Option Nat

/-- A protobuf name: letters, digits and underscores, and no digit first. -/
def IsIdentifier (name : String) : Prop :=
  (∃ c ∈ name.toList.head?, c.isAlpha = true ∨ c = '_') ∧
    ∀ c ∈ name.toList, c.isAlphanum = true ∨ c = '_'

instance (name : String) : Decidable (IsIdentifier name) :=
  decidable_of_iff
    (name.toList.head?.any (fun c => c.isAlpha || c = '_') = true ∧
      name.toList.all (fun c => c.isAlphanum || c = '_') = true)
    (by simp [IsIdentifier, Option.any_eq_true])

structure Schema (σ : Type) where
  types : Nat
  fullName : Fin types → String
  fields : Fin types → List (FieldDesc σ (Fin types))
  nodup : ∀ t, ((fields t).map (·.name)).Nodup
  ident : ∀ t, ∀ fd ∈ fields t, IsIdentifier fd.name
  /-- A field of a oneof is singular. -/
  oneof : ∀ t, ∀ fd ∈ fields t, fd.oneof.isSome = true → fd.card = .singular

inductive Val (σ : Type) where
  | unset
  | scalar (s : σ)
  | message (fields : String → Val σ)
  | list (length : Nat) (elem : Nat → Val σ)
  | map (keys : List String) (entry : String → Val σ)
  | struct (keys : List String) (entry : String → Val σ)
  | listValue (length : Nat) (elem : Nat → Val σ)

abbrev Fields (σ : Type) := String → Val σ

variable {σ : Type}

namespace Val

/-- Whether a field with this value is populated: an empty list or map is not. -/
def has : Val σ → Bool
  | .unset => false
  | .list n _ => n != 0
  | .map keys _ => !keys.isEmpty
  | _ => true

/-- The message of a field; an unset one reads as empty. -/
def fields : Val σ → Fields σ
  | .message f => f
  | _ => fun _ => .unset

end Val

namespace FieldDesc

variable {τ : Type} (fd : FieldDesc σ τ)

def hasBehavior (b : Behavior) : Bool := fd.behaviors.contains b

/-- `isExpandableMessage`: the type of a singular message field that the schema describes. -/
def expandable? : Option τ :=
  match fd.card, fd.kind with
  | .singular, .message t => some t
  | _, _ => none

/-- `OUTPUT_ONLY` governs, then `IDENTIFIER`, then `IMMUTABLE`. -/
def serverManagedBehavior : Behavior :=
  if fd.hasBehavior .outputOnly then .outputOnly
  else if fd.hasBehavior .identifier then .identifier
  else if fd.hasBehavior .immutable then .immutable
  else .unspecified

end FieldDesc

namespace Schema

variable (S : Schema σ)

abbrev Field := FieldDesc σ (Fin S.types)

/-- `Fields().ByName`. -/
def field? (t : Fin S.types) (name : String) : Option S.Field :=
  (S.fields t).find? fun fd => fd.name == name

def Static : Prop := ∀ t, ∀ fd ∈ S.fields t, ∀ d, fd.kind ≠ .dynamic d

instance : Decidable S.Static :=
  decidable_of_iff (∀ t, ∀ fd ∈ S.fields t, fd.kind ≠ .dynamic .struct ∧
    fd.kind ≠ .dynamic .listValue ∧
    fd.kind ≠ .dynamic .value)
    ⟨fun h t fd hfd d => by cases d; exacts [(h t fd hfd).1, (h t fd hfd).2.1, (h t fd hfd).2.2],
      fun h t fd hfd => ⟨h t fd hfd _, h t fd hfd _, h t fd hfd _⟩⟩

variable {S} {t : Fin S.types} {name : String} {fd : S.Field}

theorem mem_of_field? (h : S.field? t name = some fd) : fd ∈ S.fields t ∧ fd.name = name :=
  ⟨List.mem_of_find?_eq_some h, by simpa using List.find?_some h⟩

theorem field?_of_mem (h : fd ∈ S.fields t) : S.field? t fd.name = some fd := by
  have hsome : (S.field? t fd.name).isSome := by
    rw [field?, List.find?_isSome]
    exact ⟨fd, h, by simp⟩
  obtain ⟨fd', hfd'⟩ := Option.isSome_iff_exists.mp hsome
  have hmem := mem_of_field? hfd'
  rw [hfd', List.inj_on_of_nodup_map (S.nodup t) hmem.1 h hmem.2]

theorem field?_of_not_isIdentifier (h : ¬IsIdentifier name) : S.field? t name = none := by
  cases hf : S.field? t name with
  | none => rfl
  | some fd =>
    obtain ⟨hmem, rfl⟩ := mem_of_field? hf
    exact absurd (S.ident t fd hmem) h

end Schema

/-! ## Typed messages -/

namespace Val

/-- No two fields of one oneof are set. -/
def OneofOk (S : Schema σ) (t : Fin S.types) (f : Fields σ) : Prop :=
  ∀ a b fa fb o, S.field? t a = some fa → S.field? t b = some fb → fa.oneof = some o →
    fb.oneof = some o → f a ≠ .unset → f b ≠ .unset → a = b

/-- A value that a field of the kind and the cardinality can hold. -/
def Fits (S : Schema σ) : Val σ → Kind (Fin S.types) → Card → Prop
  | .scalar _, .scalar, .singular => True
  | .message f, .message t, .singular =>
    (∀ name, f name = .unset ∨ ∃ fd, S.field? t name = some fd ∧ Fits S (f name) fd.kind fd.card) ∧
      OneofOk S t f
  | .list n e, k, .list => ∀ i < n, Fits S (e i) k .singular
  | .map keys e, k, .map => ∀ key ∈ keys, Fits S (e key) k .singular
  | .scalar _, .dynamic .value, .singular => True
  | .struct _ _, .dynamic d, .singular => d ≠ .listValue
  | .listValue _ _, .dynamic d, .singular => d ≠ .struct
  | _, _, _ => False

theorem oneofOk_of_none {S : Schema σ} {t : Fin S.types} (h : ∀ fd ∈ S.fields t, fd.oneof = none)
    (f : Fields σ) : OneofOk S t f := by
  intro a b fa fb o ha _ hfa
  rw [h fa (Schema.mem_of_field? ha).1] at hfa
  cases hfa

section Fits

variable {S : Schema σ} {k : Kind (Fin S.types)} {c : Card}

theorem Fits.message {f : Fields σ} (h : (Val.message f).Fits S k c) :
    ∃ t, k = .message t ∧ c = .singular ∧ ∀ name, f name = .unset ∨
      ∃ fd, S.field? t name = some fd ∧ (f name).Fits S fd.kind fd.card := by
  cases k <;> cases c <;> simp [Fits] at h
  exact ⟨_, rfl, rfl, h.1⟩

theorem Fits.list {n : Nat} {e : Nat → Val σ} (h : (Val.list n e).Fits S k c) :
    c = .list ∧ ∀ i < n, (e i).Fits S k .singular := by
  cases k <;> cases c <;> simp [Fits] at h
  all_goals exact ⟨rfl, h⟩

theorem Fits.map {keys : List String} {e : String → Val σ} (h : (Val.map keys e).Fits S k c) :
    c = .map ∧ ∀ key ∈ keys, (e key).Fits S k .singular := by
  cases k <;> cases c <;> simp [Fits] at h
  all_goals exact ⟨rfl, h⟩

end Fits

end Val

/-! ## Leaves -/

/-- One step down a message: to a field, to an element of a list, or to the value of a map's key. -/
inductive Step where
  | field (name : String)
  | elem (i : Nat)
  | key (k : String)
  deriving DecidableEq, Repr

def Val.leaf? : Val σ → List Step → Option σ
  | .scalar s, [] => some s
  | .message f, .field name :: loc => (f name).leaf? loc
  | .list n e, .elem i :: loc => if i < n then (e i).leaf? loc else none
  | .map keys e, .key k :: loc => if k ∈ keys then (e k).leaf? loc else none
  | _, _ => none

end GoAtlas.FieldMask
