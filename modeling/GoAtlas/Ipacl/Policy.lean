import GoAtlas.Clientip.Extractor
import Mathlib.Data.List.Forall2

/-!
# Access control by address

The access rules of `ipacl`, and the registry of `endpointrule` that finds the rule of an endpoint.
Of a regular expression only what it matches is kept. An address is unmapped before it is compared,
the prefixes of a rule are as the configuration has them: a prefix in its IPv4-mapped form has no
address.
-/

namespace GoAtlas.Ipacl

open Clientip

inductive Policy where
  | deny
  | allow
  deriving DecidableEq

structure AccessRule where
  allowlist : List Prefix
  denylist : List Prefix

/-- `endpointrule.Registry` with the policy; a later entry of `rules` for the same endpoint replaces
an earlier one. -/
structure Registry where
  rules : List (String × AccessRule)
  patternRules : List ((String → Bool) × AccessRule)
  defaultRule : Option AccessRule
  policy : Policy

variable {r : Registry} {endpoint : String}

/-- The rule of the endpoint itself, then the first pattern that matches, then the default. -/
def Registry.lookup (r : Registry) (endpoint : String) : Option AccessRule :=
  ((r.rules.reverse.find? fun e => e.1 == endpoint).map Prod.snd).or
    (((r.patternRules.find? fun pr => pr.1 endpoint).map Prod.snd).or r.defaultRule)

/-- `InList`; the zero address is in no prefix. -/
def listed (ps : List Prefix) (ip : Option IP) : Bool := ip.any fun a => inList a ps

def AccessRule.decides (rule : AccessRule) (policy : Policy) (ip : Option IP) : Bool :=
  if listed rule.denylist ip then false
  else if listed rule.allowlist ip then true
  else policy == .allow

def Registry.evaluate (r : Registry) (ip : Option IP) (endpoint : String) : Bool :=
  (r.lookup endpoint).elim (r.policy == .allow) fun rule => rule.decides r.policy (ip.map IP.unmap)

/-! ## From the configuration -/

/-- `ConvertIpAclRule`; an empty list parses to an empty one. -/
def convertIpAclRule (parsePrefix : String → Option Prefix) (parseAddr : String → Option IP)
    (allowlist denylist : List String) : Option AccessRule := do
  let allowlist ← parsePrefixes parsePrefix parseAddr allowlist
  let denylist ← parsePrefixes parsePrefix parseAddr denylist
  return { allowlist, denylist }

/-! ## Spellings -/

/-- The IPv4-mapped form `::ffff:n`. -/
def mapped (n : BitVec 32) : IP := .v6 (BitVec.ofNat 128 (0xffff * 2 ^ 32 + n.toNat)) []

/-- `n/bits` written as `::ffff:n/(96 + bits)`. -/
def mappedPrefix (n : BitVec 32) (bits : Nat) : Prefix := ⟨mapped n, 96 + bits⟩

/-- The prefix is an IPv4 one in its mapped form. -/
def IsMapped (p : Prefix) : Prop := p.addr ≠ p.addr.unmap ∧ 96 ≤ p.bits

/-- A prefix and a spelling of it: the same one, or the mapped form of an IPv4 prefix. -/
inductive Respelled : Prefix → Prefix → Prop where
  | same (p : Prefix) (h : ¬ IsMapped p) : Respelled p p
  | asMapped (n : BitVec 32) (bits : Nat) : Respelled ⟨.v4 n, bits⟩ (mappedPrefix n bits)

/-- The same rule, its prefixes spelled in either way. -/
structure AccessRule.Respelled (rule rule' : AccessRule) : Prop where
  allowlist : List.Forall₂ Ipacl.Respelled rule.allowlist rule'.allowlist
  denylist : List.Forall₂ Ipacl.Respelled rule.denylist rule'.denylist

/-- The same rules for the same endpoints. -/
structure Registry.Respelled (r r' : Registry) : Prop where
  rules : List.Forall₂ (fun e e' => e.1 = e'.1 ∧ e.2.Respelled e'.2) r.rules r'.rules
  patternRules :
    List.Forall₂ (fun e e' => e.1 = e'.1 ∧ e.2.Respelled e'.2) r.patternRules r'.patternRules
  defaultRule : Option.Rel AccessRule.Respelled r.defaultRule r'.defaultRule

/-- The IPv4 address lies in the network of the prefix, however that is spelled. -/
def Inside (p : Prefix) (n : BitVec 32) : Prop := p.normalize.contains (.v4 n) = true

/-- What is inside a prefix in its mapped form is inside one of the same list that is not; for an
allow prefix it may also be a deny prefix. -/
structure AccessRule.Covered (rule : AccessRule) : Prop where
  deny : ∀ p ∈ rule.denylist, IsMapped p → ∀ n, Inside p n →
    ∃ q ∈ rule.denylist, ¬ IsMapped q ∧ Inside q n
  allow : ∀ p ∈ rule.allowlist, IsMapped p → ∀ n, Inside p n →
    ∃ q ∈ rule.denylist ++ rule.allowlist, ¬ IsMapped q ∧ Inside q n

/-! ## Addresses -/

@[simp] theorem unmap_mapped (n : BitVec 32) : (mapped n).unmap = .v4 n := by
  have hn := n.isLt
  have hnat : (BitVec.ofNat 128 (0xffff * 2 ^ 32 + n.toNat)).toNat = 0xffff * 2 ^ 32 + n.toNat := by
    rw [BitVec.toNat_ofNat, Nat.mod_eq_of_lt (by omega)]
  rw [mapped, IP.unmap, hnat, if_pos (by omega), IP.v4.injEq]
  apply BitVec.eq_of_toNat_eq
  rw [BitVec.toNat_ofNat]
  omega

theorem normalize_of_not_mapped {p : Prefix} (h : ¬ IsMapped p) : p.normalize = p := if_neg h

theorem isMapped_mappedPrefix (n : BitVec 32) (bits : Nat) : IsMapped (mappedPrefix n bits) := by
  refine ⟨fun h => ?_, Nat.le_add_right 96 bits⟩
  rw [mappedPrefix, unmap_mapped] at h
  cases h

theorem normalize_mappedPrefix (n : BitVec 32) (bits : Nat) :
    (mappedPrefix n bits).normalize = ⟨.v4 n, bits⟩ := by
  have hif : (mappedPrefix n bits).normalize = ⟨(mapped n).unmap, 96 + bits - 96⟩ :=
    if_pos (isMapped_mappedPrefix n bits)
  rw [hif, unmap_mapped, Nat.add_sub_cancel_left]

theorem Respelled.eq {p p' : Prefix} (h : Respelled p p') : p = p'.normalize := by
  cases h with
  | same p h => exact (normalize_of_not_mapped h).symm
  | asMapped n bits => exact (normalize_mappedPrefix n bits).symm

theorem listed_iff {ps : List Prefix} {n : BitVec 32} :
    listed ps (some (.v4 n)) = true ↔ ∃ q ∈ ps, ¬ IsMapped q ∧ Inside q n := by
  simp only [listed, Option.any_some, inList, List.any_eq_true]
  constructor
  · rintro ⟨q, hq, hcontains⟩
    have hplain : ¬ IsMapped q := by
      rintro ⟨hne, -⟩
      rcases Prefix.contains_cases hcontains with ⟨x, m, hx, -⟩ | ⟨x, z, m, -, h, -⟩
      · exact hne (by rw [hx]; rfl)
      · cases h
    exact ⟨q, hq, hplain, by rwa [Inside, normalize_of_not_mapped hplain]⟩
  · rintro ⟨q, hq, hplain, hinside⟩
    rw [Inside, normalize_of_not_mapped hplain] at hinside
    exact ⟨q, hq, hinside⟩

theorem listed_respelled_iff {ps ps' : List Prefix} {n : BitVec 32}
    (h : List.Forall₂ Respelled ps ps') :
    listed ps (some (.v4 n)) = true ↔ ∃ p ∈ ps', Inside p n := by
  have hmap : ps = ps'.map Prefix.normalize := by
    induction h with
    | nil => rfl
    | cons hp _ ih => rw [List.map_cons, ← hp.eq, ← ih]
  rw [hmap]
  simp [listed, inList, Inside]

/-! ## Decisions -/

theorem listed_iff_inside {prefixes : List Prefix} {n : BitVec 32}
    (h : ∀ p ∈ prefixes, IsMapped p → Inside p n →
      ∃ q ∈ prefixes, ¬ IsMapped q ∧ Inside q n) :
    listed prefixes (some (.v4 n)) = true ↔ ∃ p ∈ prefixes, Inside p n := by
  rw [listed_iff]
  constructor
  · rintro ⟨q, hq, -, hin⟩
    exact ⟨q, hq, hin⟩
  · rintro ⟨p, hp, hin⟩
    by_cases hm : IsMapped p
    · exact h p hp hm hin
    · exact ⟨p, hp, hm, hin⟩

theorem decides_eq_false_iff {rule : AccessRule} {policy : Policy} {ip : Option IP} :
    rule.decides policy ip = false ↔
      listed rule.denylist ip = true ∨ policy = .deny ∧ listed rule.allowlist ip = false := by
  unfold AccessRule.decides
  cases listed rule.denylist ip <;> cases listed rule.allowlist ip <;> cases policy <;> decide

/-- The decision on an address does not depend on the spelling, and what is inside a deny prefix is
denied. -/
def AccessRule.Indifferent (rule rule' : AccessRule) (policy : Policy) (n : BitVec 32) : Prop :=
  rule'.decides policy (some (.v4 n)) = rule.decides policy (some (.v4 n)) ∧
    ((∃ p ∈ rule'.denylist, Inside p n) → rule'.decides policy (some (.v4 n)) = false)

variable {rule rule' : AccessRule}

theorem AccessRule.covered_of_indifferent (h : rule.Respelled rule')
    (hsame : ∀ policy n, rule.Indifferent rule' policy n) : rule'.Covered := by
  have hdeny : ∀ n, (∃ p ∈ rule'.denylist, Inside p n) →
      ∃ q ∈ rule'.denylist, ¬ IsMapped q ∧ Inside q n := by
    intro n hin
    rcases decides_eq_false_iff.mp ((hsame .allow n).2 hin) with hlisted | ⟨hpolicy, -⟩
    · exact listed_iff.mp hlisted
    · cases hpolicy
  refine ⟨fun p hp _ n hin => hdeny n ⟨p, hp, hin⟩, fun p hp _ n hin => ?_⟩
  by_contra hnone
  -- the policy denies what no prefix lists, and the plain rule allows it
  have hfalse : rule'.decides .deny (some (.v4 n)) = false := by
    refine decides_eq_false_iff.mpr (.inr ⟨rfl, Bool.eq_false_iff.mpr fun hlisted => hnone ?_⟩)
    obtain ⟨q, hq, hplain⟩ := listed_iff.mp hlisted
    exact ⟨q, List.mem_append_right _ hq, hplain⟩
  rw [(hsame .deny n).1, decides_eq_false_iff, listed_respelled_iff h.denylist] at hfalse
  rcases hfalse with hin | ⟨-, hallow⟩
  · obtain ⟨q, hq, hplain⟩ := hdeny n hin
    exact hnone ⟨q, List.mem_append_left _ hq, hplain⟩
  · rw [(listed_respelled_iff h.allowlist).mpr ⟨p, hp, hin⟩] at hallow
    cases hallow

theorem AccessRule.Covered.indifferent (hcovered : rule'.Covered) (h : rule.Respelled rule')
    (policy : Policy) (n : BitVec 32) : rule.Indifferent rule' policy n := by
  have hdeny := listed_iff_inside fun p hp hm hin => hcovered.deny p hp hm n hin
  refine ⟨?_, fun hin => decides_eq_false_iff.mpr (.inl (hdeny.mpr hin))⟩
  rw [Bool.eq_iff_iff, ← not_iff_not, Bool.not_eq_true, Bool.not_eq_true, decides_eq_false_iff,
    decides_eq_false_iff, listed_respelled_iff h.denylist, hdeny]
  refine or_congr_right' fun hnot => and_congr_right fun _ => ?_
  rw [Bool.eq_false_iff, Bool.eq_false_iff, ne_eq, ne_eq, not_iff_not,
    listed_respelled_iff h.allowlist]
  refine listed_iff_inside fun p hp hm hin => ?_
  obtain ⟨q, hq, hplain, hqin⟩ := hcovered.allow p hp hm n hin
  rcases List.mem_append.mp hq with hq | hq
  · exact absurd ⟨q, hq, hqin⟩ hnot
  · exact ⟨q, hq, hplain, hqin⟩

/-! ## Registries -/

theorem find?_respelled {α : Type} {es es' : List (α × AccessRule)} (found : α → Bool)
    (h : List.Forall₂ (fun e e' => e.1 = e'.1 ∧ e.2.Respelled e'.2) es es') :
    Option.Rel AccessRule.Respelled ((es.find? fun e => found e.1).map Prod.snd)
      ((es'.find? fun e => found e.1).map Prod.snd) := by
  induction h with
  | nil => exact .none
  | @cons e e' es es' he _ ih =>
    rw [List.find?_cons, List.find?_cons, ← he.1]
    cases found e.1 with
    | true => exact .some he.2
    | false => exact ih

theorem rel_or {α : Type} {R : α → α → Prop} {a a' b b' : Option α} (ha : Option.Rel R a a')
    (hb : Option.Rel R b b') : Option.Rel R (a.or b) (a'.or b') := by
  cases ha with
  | none => exact hb
  | some h => exact .some h

theorem Registry.Respelled.lookup {r r' : Registry} (h : r.Respelled r') (endpoint : String) :
    Option.Rel AccessRule.Respelled (r.lookup endpoint) (r'.lookup endpoint) :=
  rel_or (find?_respelled (· == endpoint) (List.rel_reverse h.rules))
    (rel_or (find?_respelled (· endpoint) h.patternRules) h.defaultRule)

/-- An address and its mapped form get the same answer. That the answer on an IPv4 address does not
change with the spelling of the prefixes, and that nothing inside a listed deny prefix is allowed,
holds under both policies if and only if the rule that is found is covered by the prefixes that are
not in their mapped form. -/
theorem evaluate_spelling (r r' : Registry) (h : r.Respelled r') (endpoint : String) :
    (∀ n, r'.evaluate (some (mapped n)) endpoint = r'.evaluate (some (.v4 n)) endpoint) ∧
    ((∀ policy n,
      { r' with policy }.evaluate (some (.v4 n)) endpoint =
        { r with policy }.evaluate (some (.v4 n)) endpoint ∧
      ∀ rule ∈ r'.lookup endpoint, (∃ p ∈ rule.denylist, Inside p n) →
        { r' with policy }.evaluate (some (.v4 n)) endpoint = false) ↔
      ∀ rule ∈ r'.lookup endpoint, rule.Covered) := by
  refine ⟨fun n => ?_, ?_⟩
  · simp only [Registry.evaluate, Option.map_some, unmap_mapped]
    rfl
  · have hevaluate : ∀ (r : Registry) policy n, { r with policy }.evaluate (some (.v4 n)) endpoint =
        (r.lookup endpoint).elim (policy == .allow) fun rule =>
          rule.decides policy (some (.v4 n)) :=
      fun _ _ _ => rfl
    have hrel := h.lookup endpoint
    simp only [hevaluate]
    generalize r.lookup endpoint = found, r'.lookup endpoint = found' at hrel
    cases hrel with
    | none => simp
    | @some rule rule' hrule =>
      have hiff : (∀ policy n, rule.Indifferent rule' policy n) ↔ rule'.Covered :=
        ⟨AccessRule.covered_of_indifferent hrule, fun hcovered => hcovered.indifferent hrule⟩
      simpa [AccessRule.Indifferent] using hiff

def tenNet : BitVec 32 := BitVec.ofNat 32 (10 * 2 ^ 24)

def parseTen (s : String) : Option Prefix :=
  if s = "10.0.0.0/8" then some ⟨.v4 tenNet, 8⟩
  else if s = "::ffff:10.0.0.0/104" then some (mappedPrefix tenNet 8)
  else none

def allowingRest (rule : AccessRule) : Registry :=
  { rules := [], patternRules := [], defaultRule := some rule, policy := .allow }

def denyTen (p : Prefix) : AccessRule := { allowlist := [], denylist := [⟨.v4 tenNet, 8⟩, p] }

theorem not_isMapped_v4 (n : BitVec 32) (bits : Nat) : ¬ IsMapped ⟨.v4 n, bits⟩ := fun h => h.1 rfl

theorem contains_v4_iff {x n : BitVec 32} {bits : Nat} :
    (⟨.v4 x, bits⟩ : Prefix).contains (.v4 n) = true ↔
      bits ≤ 32 ∧ x.toNat / 2 ^ (32 - bits) = n.toNat / 2 ^ (32 - bits) := by
  simp [Prefix.contains]

theorem respelled_denyTen :
    (allowingRest (denyTen ⟨.v4 tenNet, 16⟩)).Respelled
      (allowingRest (denyTen (mappedPrefix tenNet 16))) where
  rules := .nil
  patternRules := .nil
  defaultRule := .some ⟨.nil, .cons (.same _ (not_isMapped_v4 _ _))
    (.cons (.asMapped _ _) .nil)⟩

theorem covered_denyTen : (denyTen (mappedPrefix tenNet 16)).Covered where
  deny p hp hm n hin := by
    refine ⟨⟨.v4 tenNet, 8⟩, List.mem_cons_self, not_isMapped_v4 _ _, ?_⟩
    rcases List.mem_cons.mp hp with rfl | hp
    · exact hin
    · obtain rfl := List.mem_singleton.mp hp
      rw [Inside, normalize_mappedPrefix, contains_v4_iff] at hin
      rw [Inside, normalize_of_not_mapped (not_isMapped_v4 _ _), contains_v4_iff]
      exact ⟨by decide, by omega⟩
  allow p hp := by cases hp

theorem evaluate_spelling_covered :
    (allowingRest (denyTen (mappedPrefix tenNet 16))).evaluate (some (mapped tenNet)) "/admin" =
      false ∧
    (allowingRest (denyTen (mappedPrefix tenNet 16))).evaluate (some (.v4 tenNet)) "/admin" =
      false := by
  obtain ⟨hmapped, hsame⟩ := evaluate_spelling _ _ respelled_denyTen "/admin"
  have hplain := ((hsame.mpr (by rintro _ ⟨⟩; exact covered_denyTen)) .allow tenNet).2 _ rfl
    ⟨⟨.v4 tenNet, 8⟩, List.mem_cons_self, rfl⟩
  exact ⟨(hmapped tenNet).trans hplain, hplain⟩

/-- Written in its mapped form, a deny prefix of the configuration denies nothing. -/
theorem mapped_deny_ignored :
    (convertIpAclRule parseTen (fun _ => none) [] ["10.0.0.0/8"]).map
      (fun rule => (allowingRest rule).evaluate (some (.v4 tenNet)) "/admin") = some false ∧
    (convertIpAclRule parseTen (fun _ => none) [] ["::ffff:10.0.0.0/104"]).map
      (fun rule => (allowingRest rule).evaluate (some (.v4 tenNet)) "/admin") = some true ∧
    Respelled ⟨.v4 tenNet, 8⟩ (mappedPrefix tenNet 8) ∧ Inside (mappedPrefix tenNet 8) tenNet := by
  refine ⟨by decide, by decide, .asMapped _ _, ?_⟩
  rw [Inside, normalize_mappedPrefix]
  decide

end GoAtlas.Ipacl
