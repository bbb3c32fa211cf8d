import Mathlib.Data.List.Chain
import Mathlib.Data.List.Induction

/-!
# Logs of events

A log lists what happened, oldest first. `Guarded P log` says that every event was allowed by what
had happened before it; it is the form of a protocol's rules, and it is kept by appending an event
the log allows. Some events write a state: if each state is made from the one before it in a way
that a transitive relation covers, the relation holds between all of them, and a version that only
grows names a state.
-/

namespace GoAtlas.Lib

variable {ε : Type}

/-- Every event of the log meets `P` with the events before it. -/
def Guarded (P : List ε → ε → Prop) (log : List ε) : Prop :=
  ∀ pre e post, log = pre ++ e :: post → P pre e

theorem split_concat {log pre post : List ε} {e e' : ε} (h : log ++ [e] = pre ++ e' :: post) :
    (pre = log ∧ e' = e ∧ post = []) ∨ ∃ post', post = post' ++ [e] ∧ log = pre ++ e' :: post' := by
  rcases List.eq_nil_or_concat post with rfl | ⟨post', last, rfl⟩
  · obtain ⟨hlog, hlast⟩ := List.append_inj' h rfl
    cases hlast
    exact .inl ⟨hlog.symm, rfl, rfl⟩
  · have happ : log ++ [e] = (pre ++ e' :: post') ++ [last] := by simpa using h
    obtain ⟨hlog, hlast⟩ := List.append_inj' happ rfl
    cases hlast
    exact .inr ⟨post', by simp, hlog⟩

namespace Guarded

variable {P : List ε → ε → Prop} {log : List ε}

theorem nil : Guarded P [] := by
  intro pre e post h
  simp at h

theorem concat {e : ε} (h : Guarded P log) (he : P log e) : Guarded P (log ++ [e]) := by
  intro pre e' post heq
  rcases split_concat heq with ⟨rfl, rfl, -⟩ | ⟨post', -, hlog⟩
  · exact he
  · exact h pre e' post' hlog

theorem of_concat {e : ε} (h : Guarded P (log ++ [e])) : Guarded P log ∧ P log e := by
  refine ⟨fun pre e' post heq => h pre e' (post ++ [e]) ?_, h log e [] rfl⟩
  rw [heq]
  simp

theorem cons_iff {e : ε} :
    Guarded P (e :: log) ↔ P [] e ∧ Guarded (fun pre => P (e :: pre)) log := by
  constructor
  · intro h
    exact ⟨h [] e log rfl, fun pre e' post heq => h (e :: pre) e' post (by rw [heq]; rfl)⟩
  · rintro ⟨hhead, htail⟩ pre e' post heq
    cases pre with
    | nil =>
      cases heq
      exact hhead
    | cons x pre =>
      obtain ⟨rfl, hlog⟩ := List.cons.inj heq
      exact htail pre e' post hlog

instance decidable {P : List ε → ε → Prop} [∀ pre e, Decidable (P pre e)] :
    (log : List ε) → Decidable (Guarded P log)
  | [] => .isTrue nil
  | e :: log =>
    have : Decidable (Guarded (fun pre => P (e :: pre)) log) := decidable log
    decidable_of_iff (P [] e ∧ Guarded (fun pre => P (e :: pre)) log) cons_iff.symm

theorem of_append {l₁ l₂ : List ε} (h : Guarded P (l₁ ++ l₂)) : Guarded P l₁ := by
  intro pre e post heq
  refine h pre e (post ++ l₂) ?_
  rw [heq]
  simp

/-- Induction over a guarded log, event by event. -/
theorem induct {motive : List ε → Prop} (h : Guarded P log) (nil : motive [])
    (concat : ∀ log e, Guarded P log → P log e → motive log → motive (log ++ [e])) :
    motive log := by
  induction log using List.reverseRecOn with
  | nil => exact nil
  | append_singleton log e ih =>
    obtain ⟨hlog, he⟩ := h.of_concat
    exact concat log e hlog he (ih hlog)

end Guarded

/-! ## The states a log goes through -/

section

variable {σ : Type} (state? : ε → Option σ)

def states (log : List ε) : List σ := log.filterMap state?

def latest (log : List ε) : Option σ := (states state? log).getLast?

theorem states_concat (log : List ε) (e : ε) :
    states state? (log ++ [e]) = states state? log ++ (state? e).toList := by
  cases h : state? e <;> simp [states, h]

theorem states_append (l₁ l₂ : List ε) :
    states state? (l₁ ++ l₂) = states state? l₁ ++ states state? l₂ := List.filterMap_append

theorem latest_concat (log : List ε) (e : ε) :
    latest state? (log ++ [e]) = (state? e).or (latest state? log) := by
  rw [latest, states_concat]
  cases state? e with
  | none => simp [latest]
  | some x => simp

variable {state?} {P : List ε → ε → Prop} {R : σ → σ → Prop} {log : List ε}

theorem mem_of_latest {x : σ} (h : latest state? log = some x) : x ∈ states state? log :=
  List.mem_of_getLast? h

theorem mem_states {e : ε} {x : σ} (he : e ∈ log) (hx : state? e = some x) :
    x ∈ states state? log :=
  List.mem_filterMap.mpr ⟨e, he, hx⟩

theorem Guarded.isChain (h : Guarded P log)
    (hstep : ∀ log e x y, P log e → latest state? log = some x → state? e = some y → R x y) :
    (states state? log).IsChain R := by
  refine h.induct (motive := fun log => (states state? log).IsChain R) List.isChain_nil
    fun log e _ he ih => ?_
  rw [states_concat]
  refine ih.append ?_ ?_
  · cases state? e with
    | none => exact List.isChain_nil
    | some y => exact List.isChain_singleton y
  · intro x hx y hy
    refine hstep log e x y he hx ?_
    cases hs : state? e with
    | none => rw [hs] at hy; cases hy
    | some z => rw [hs] at hy; exact hy

theorem Guarded.pairwise (h : Guarded P log) (htrans : ∀ x y z, R x y → R y z → R x z)
    (hstep : ∀ log e x y, P log e → latest state? log = some x → state? e = some y → R x y) :
    (states state? log).Pairwise R := by
  have : Trans R R R := ⟨htrans _ _ _⟩
  exact (h.isChain hstep).pairwise

theorem rel_latest (hp : (states state? log).Pairwise R) (hrefl : ∀ x, R x x) {x last : σ}
    (hlast : latest state? log = some last) (hx : x ∈ states state? log) : R x last := by
  obtain ⟨front, hfront⟩ := List.getLast?_eq_some_iff.mp hlast
  rw [hfront] at hp hx
  rcases List.mem_append.mp hx with hin | hend
  · exact (List.pairwise_append.mp hp).2.2 x hin last (List.mem_singleton_self _)
  · rw [List.mem_singleton.mp hend]
    exact hrefl last

theorem Guarded.kept {l mid : List ε} {Q : σ → Prop} (h : Guarded P (l ++ mid)) {x : σ}
    (hl : latest state? l = some x) (hx : Q x)
    (hstep : ∀ log e x y, P log e → e ∈ mid → latest state? log = some x → state? e = some y →
      Q x → Q y) : ∃ y, latest state? (l ++ mid) = some y ∧ Q y := by
  induction mid using List.reverseRecOn with
  | nil => exact ⟨x, by simpa using hl, hx⟩
  | append_singleton mid e ih =>
    rw [← List.append_assoc] at h ⊢
    obtain ⟨hmid, he⟩ := h.of_concat
    obtain ⟨last, hlast, hq⟩ := ih hmid fun log e x y hP hm =>
      hstep log e x y hP (List.mem_append_left _ hm)
    rw [latest_concat]
    cases hs : state? e with
    | none => exact ⟨last, hlast, hq⟩
    | some y =>
      exact ⟨y, rfl, hstep _ e last y he (List.mem_append_right _ (List.mem_singleton_self _))
        hlast hs hq⟩

/-- If the last state is one of the front part, nothing was written after that part. -/
theorem states_eq_nil {l₁ l₂ : List ε} (hirrefl : ∀ x, ¬ R x x)
    (hp : (states state? (l₁ ++ l₂)).Pairwise R) {x : σ} (hx : x ∈ states state? l₁)
    (hlast : latest state? (l₁ ++ l₂) = some x) : states state? l₂ = [] := by
  by_contra hne
  rw [latest, states_append, List.getLast?_append_of_ne_nil _ hne] at hlast
  rw [states_append] at hp
  exact hirrefl x ((List.pairwise_append.mp hp).2.2 x hx x (List.mem_of_getLast? hlast))

/-- A version that only grows names a state. -/
theorem eq_of_version {ν : Type} [Preorder ν] {version : σ → ν}
    (hp : (states state? log).Pairwise fun x y => version x < version y) {x y : σ}
    (hx : x ∈ states state? log) (hy : y ∈ states state? log) (hv : version x = version y) :
    x = y := by
  by_contra hne
  have : Std.Symm fun x y : σ => version x ≠ version y := ⟨fun _ _ => Ne.symm⟩
  exact (hp.imp fun hlt => hlt.ne).forall hx hy hne hv

end

end GoAtlas.Lib
