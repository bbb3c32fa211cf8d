import GoAtlas.Lib.Moves
import GoAtlas.Cache.Generations

/-!
# What a read through the cache returns

A key names what is asked for and the generation that was read before: whatever is stored or shared
under it was filled for the same target, after the bumps up to that generation had been applied, and
so after the writes before them. That holds of every entry, every shared fill and every late write
of the storage, however slow; a bump adds nothing to it, for it takes the namespace to a generation
that no key has yet.
-/

namespace GoAtlas.Cache

open Lib Lib.History Function

variable {α : Type} {cfg : Config} {s s' : Sys α} {t t' : Target} {p q n g gen : Nat}
    {ek ns : Bytes}
  {h h' : History Target α} {a : Answer α} {x y : Op α}

/-! ## Answers -/

/-- The answer was read from the target's place when at least `n` writes were there. -/
def Answer.After (h : History Target α) (n : Nat) (t : Target) : Answer α → Prop
  | .value val => h.ReadAfter n t (some val)
  | .missing => h.ReadAfter n t none
  | .failed => True

theorem Answer.After.suffix (ha : a.After h n t) (hs : h <:+ h') : a.After h' n t := by
  cases a with
  | value val => exact History.ReadAfter.suffix ha hs
  | missing => exact History.ReadAfter.suffix ha hs
  | failed => trivial

theorem Answer.After.mono (ha : a.After h n t) {m : Nat} (hm : m ≤ n) : a.After h m t := by
  cases a with
  | value val => exact History.ReadAfter.mono ha hm
  | missing => exact History.ReadAfter.mono ha hm
  | failed => trivial

theorem answer_after (ok : Bool) (hn : n ≤ s.history.length) :
    (s.answer t ok).After s.history n t := by
  simp only [Sys.answer]
  split
  · split
    · rename_i val hget
      rw [Answer.After, ← hget]
      exact .now hn
    · rename_i hget
      rw [Answer.After, ← hget]
      exact .now hn
  · trivial

theorem saveAnswer_after (ha : a.After h n t) (saved : Saved) :
    (saveAnswer cfg a saved).After h n t := by
  cases a with
  | missing => exact ha
  | failed => trivial
  | value val =>
    simp only [saveAnswer]
    split
    · exact ha
    · trivial

theorem stored?_after {e : Entry α} (ha : a.After h n t) (he : stored? cfg a = some e) :
    e.answer.After h n t := by
  cases a with
  | value val =>
    cases he
    exact ha
  | failed => cases he
  | missing =>
    simp only [stored?] at he
    split at he <;> cases he
    exact ha

/-! ## The invariant -/

structure View (α : Type) where
  history : History Target α
  gen : Bytes → Nat
  covered : Bytes → Nat → Nat

abbrev Sys.view (s : Sys α) : View α := ⟨s.history, s.gen, s.covered⟩

variable {u u' : View α}

def View.mark (u : View α) (t : Target) (gen : Nat) : Nat :=
  if t.generational then u.covered t.ns gen else 0

def View.Tag (u : View α) (cfg : Config) (t : Target) (gen : Nat) : Prop :=
  cfg.Admits t ∧ (t.generational = true → gen ≤ u.gen t.ns)

structure View.Keyed (u : View α) (cfg : Config) (t : Target) (gen : Nat) (ek : Bytes) : Prop where
  tag : u.Tag cfg t gen
  key : ∃ version, ek = t.effectiveKey cfg version gen

def View.Owned (u : View α) (cfg : Config) (ek : Bytes) (a : Answer α) : Prop :=
  ∃ t gen, u.Keyed cfg t gen ek ∧ a.After u.history (u.mark t gen) t

def Load.Ok (u : View α) (t : Target) (gen : Nat) : Load α → Prop
  | .fill => True
  | .save a | .stored a | .done a => a.After u.history (u.mark t gen) t

structure Call.Ok (u : View α) (cfg : Config) (call : Call α) : Prop where
  keyed : u.Keyed cfg call.target call.gen call.ek
  load : call.load.Ok u call.target call.gen

def Read.Ok (u : View α) (calls : Nat → Option (Call α)) (cfg : Config) (t : Target) : Read α → Prop
  | .current => t.generational = true ∧ cfg.Admits t
  | .direct => True
  | .key gen => u.Tag cfg t gen
  | .lookup gen ek | .share gen ek => u.Keyed cfg t gen ek
  | .wait gen c => ∃ call, calls c = some call ∧ call.target = t ∧ (t.generational = true →
    call.gen = gen)
  | .unshared gen ek load => u.Keyed cfg t gen ek ∧ load.Ok u t gen
  | .done a => a.After u.history 0 t

structure View.Bumped (u : View α) (t : Target) (v : Option α) (n g : Nat) : Prop where
  wrote : u.history.At n ⟨t, v⟩
  gen : g ≤ u.gen t.ns
  covered : ∀ c, g ≤ c → n < u.covered t.ns c

def Bumping.Ok (u : View α) (completed : Bytes → Nat) (t : Target) (v : Option α) : Bumping → Prop
  | .store | .failed => True
  | .bump n => u.history.At n ⟨t, v⟩
  | .applied n g => u.Bumped t v n g
  | .done n g => u.Bumped t v n g ∧ g ≤ completed t.ns

def Op.Ok (u : View α) (calls : Nat → Option (Call α)) (completed : Bytes → Nat) (cfg : Config) :
    Op α → Prop
  | .idle => True
  | .read t stage => stage.Ok u calls cfg t
  | .write t v stage => stage.Ok u completed t v

structure Inv (cfg : Config) (s : Sys α) : Prop where
  covered : ∀ ns c, s.covered ns c ≤ s.history.length
  storage : ∀ ek e, s.storage ek = some e → s.view.Owned cfg ek e.answer
  late : ∀ ek e, (ek, e) ∈ s.late → s.view.Owned cfg ek e.answer
  group : ∀ ek c, s.group ek = some c → ∃ call, s.calls c = some call ∧ call.ek = ek
  fresh : ∀ c call, s.calls c = some call → c < s.nextCall
  call : ∀ c call, s.calls c = some call → call.Ok s.view cfg
  op : ∀ p, (s.ops p).Ok s.view s.calls s.completed cfg

/-! ## As the state moves on -/

/-- Writes and bumps go on; what is known of the generations there are does not change. -/
structure Later (u u' : View α) : Prop where
  history : u.history <:+ u'.history
  gen : ∀ ns, u.gen ns ≤ u'.gen ns
  covered_le : ∀ ns c, u.covered ns c ≤ u'.covered ns c
  covered : ∀ ns c, c ≤ u.gen ns → u'.covered ns c = u.covered ns c

namespace Later

section

variable (hl : Later u u')
include hl

theorem tag (ht : u.Tag cfg t gen) : u'.Tag cfg t gen :=
  ⟨ht.1, fun hg => (ht.2 hg).trans (hl.gen t.ns)⟩

theorem mark (ht : u.Tag cfg t gen) : u'.mark t gen = u.mark t gen := by
  simp only [View.mark]
  split
  · rename_i hg
    exact hl.covered t.ns gen (ht.2 hg)
  · rfl

theorem keyed (hk : u.Keyed cfg t gen ek) : u'.Keyed cfg t gen ek :=
  ⟨hl.tag hk.tag, hk.key⟩

theorem after (ht : u.Tag cfg t gen) (ha : a.After u.history (u.mark t gen) t) :
    a.After u'.history (u'.mark t gen) t := by
  rw [hl.mark ht]
  exact ha.suffix hl.history

theorem owned (ho : u.Owned cfg ek a) : u'.Owned cfg ek a := by
  obtain ⟨t, gen, hk, ha⟩ := ho
  exact ⟨t, gen, hl.keyed hk, hl.after hk.tag ha⟩

theorem load (ht : u.Tag cfg t gen) {load : Load α} (hload : load.Ok u t gen) :
    load.Ok u' t gen := by
  cases load with
  | fill => trivial
  | save a | stored a | done a => exact hl.after ht hload

theorem call {call : Call α} (hc : call.Ok u cfg) : call.Ok u' cfg :=
  ⟨hl.keyed hc.keyed, hl.load hc.keyed.tag hc.load⟩

theorem bumped {v : Option α} (hb : u.Bumped t v n g) : u'.Bumped t v n g where
  wrote := hb.wrote.suffix hl.history
  gen := hb.gen.trans (hl.gen t.ns)
  covered c hc := (hb.covered c hc).trans_le (hl.covered_le t.ns c)

end

def Calls (calls calls' : Nat → Option (Call α)) : Prop :=
  ∀ c call, calls c = some call → ∃ call', calls' c = some call' ∧ call'.target = call.target ∧
    call'.gen = call.gen

theorem op (hl : Later u u') {calls calls' : Nat → Option (Call α)}
    {completed completed' : Bytes → Nat} (hcalls : Calls calls calls')
    (hcompleted : ∀ ns, completed ns ≤ completed' ns) (hx : x.Ok u calls completed cfg) :
    x.Ok u' calls' completed' cfg := by
  cases x with
  | idle => trivial
  | read t stage =>
    cases stage with
    | current => exact hx
    | direct => trivial
    | key gen => exact hl.tag hx
    | lookup gen ek | share gen ek => exact hl.keyed hx
    | wait gen c =>
      obtain ⟨call, hcall, htarget, hgen⟩ := hx
      obtain ⟨call', hcall', htarget', hgen'⟩ := hcalls c call hcall
      exact ⟨call', hcall', htarget'.trans htarget, fun hg => hgen'.trans (hgen hg)⟩
    | unshared gen ek load => exact ⟨hl.keyed hx.1, hl.load hx.1.tag hx.2⟩
    | done a => exact Answer.After.suffix hx hl.history
  | write t v stage =>
    cases stage with
    | store | failed => trivial
    | bump n => exact History.At.suffix hx hl.history
    | applied n g => exact hl.bumped hx
    | done n g => exact ⟨hl.bumped hx.1, hx.2.trans (hcompleted t.ns)⟩

theorem refl : Later u u := ⟨List.suffix_rfl, fun _ => le_rfl, fun _ _ => le_rfl, fun _ _ _ => rfl⟩

theorem calls_refl {calls : Nat → Option (Call α)} : Calls calls calls :=
  fun _ call hc => ⟨call, hc, rfl, rfl⟩

end Later

namespace Inv

variable (hi : Inv cfg s)
include hi

theorem setOp (hx : x.Ok s.view s.calls s.completed cfg) : Inv cfg (s.setOp p x) :=
  { hi with
    op := forall_update (Q := fun _ (y : Op α) => y.Ok s.view s.calls s.completed cfg) hx
      fun q _ => hi.op q }

theorem grow {history : History Target α} {gen completed : Bytes → Nat}
    {covered : Bytes → Nat → Nat} (hl : Later s.view ⟨history, gen, covered⟩)
    (hcovered : ∀ ns c, covered ns c ≤ history.length)
    (hcompleted : ∀ ns, s.completed ns ≤ completed ns) :
    Inv cfg { s with history := history, gen := gen, completed := completed, covered := covered }
      where
  covered := hcovered
  storage ek e he := hl.owned (hi.storage ek e he)
  late ek e he := hl.owned (hi.late ek e he)
  group := hi.group
  fresh := hi.fresh
  call c call hc := hl.call (hi.call c call hc)
  op p := hl.op Later.calls_refl hcompleted (hi.op p)

theorem setStorage {storage : Bytes → Option (Entry α)}
    (hstorage : ∀ ek e, storage ek = some e → s.storage ek = some e ∨
    s.view.Owned cfg ek e.answer) :
    Inv cfg { s with storage := storage } :=
  { hi with storage := fun ek e he => (hstorage ek e he).elim (hi.storage ek e) id }

theorem drop (ek : Bytes) :
    Inv cfg { s with storage := update s.storage ek none } := by
  refine hi.setStorage fun ek' e he => .inl ?_
  simp only [update_apply] at he
  split at he
  · cases he
  · exact he

theorem put {e : Entry α} (he : s.view.Owned cfg ek e.answer) :
    Inv cfg { s with storage := update s.storage ek (some e) } := by
  refine hi.setStorage fun ek' e' he' => ?_
  simp only [update_apply] at he'
  split at he'
  · rename_i heq
    cases he'
    exact .inr (heq ▸ he)
  · exact .inl he'

theorem save (hk : s.view.Keyed cfg t gen ek)
    (ha : a.After s.history (s.view.mark t gen) t) (saved : Saved) :
    Inv cfg (s.save cfg ek a saved) := by
  simp only [Sys.save]
  split
  · rename_i e he
    exact hi.put ⟨t, gen, hk, stored?_after ha he⟩
  · rename_i e he
    refine { hi with late := fun ek' e' hmem => ?_ }
    rcases List.mem_cons.mp hmem with heq | hmem
    · cases heq
      exact ⟨t, gen, hk, stored?_after ha he⟩
    · exact hi.late ek' e' hmem
  · exact hi

theorem newCall (hk : s.view.Keyed cfg t gen ek) :
    Inv cfg { s with
      group := update s.group ek (some s.nextCall)
      calls := update s.calls s.nextCall (some ⟨t, gen, ek, .fill⟩)
      nextCall := s.nextCall + 1 } := by
  have hold : ∀ c call, s.calls c = some call →
      update s.calls s.nextCall (some ⟨t, gen, ek, .fill⟩) c = some call := by
    intro c call hc
    rw [update_of_ne (hi.fresh c call hc).ne]
    exact hc
  exact { hi with
    group := by
      intro ek' c hc
      simp only [update_apply] at hc
      split at hc
      · rename_i heq
        cases hc
        exact ⟨_, update_self .., heq.symm⟩
      · obtain ⟨call, hcall, hek⟩ := hi.group ek' c hc
        exact ⟨call, hold c call hcall, hek⟩
    fresh := by
      intro c call hc
      simp only [update_apply] at hc
      split at hc
      · rename_i heq
        rw [heq]
        exact Nat.lt_succ_self _
      · exact Nat.lt_succ_of_lt (hi.fresh c call hc)
    call := by
      intro c call hc
      simp only [update_apply] at hc
      split at hc
      · cases hc
        exact ⟨hk, trivial⟩
      · exact hi.call c call hc
    op := fun p => Later.refl.op (fun c call hc => ⟨call, hold c call hc, rfl, rfl⟩)
      (fun _ => le_rfl) (hi.op p) }

theorem setLoad {c : Nat} {call : Call α} (hc : s.calls c = some call)
    {load : Load α} (hload : load.Ok s.view call.target call.gen) :
    Inv cfg (s.setLoad c call load) := by
  have hcalls : ∀ c' call', s.calls c' = some call' →
      ∃ call'', (s.setLoad c call load).calls c' = some call'' ∧ call''.target = call'.target ∧
        call''.gen = call'.gen ∧ call''.ek = call'.ek := by
    intro c' call' hc'
    by_cases heq : c' = c
    · subst heq
      cases hc.symm.trans hc'
      exact ⟨_, update_self .., rfl, rfl, rfl⟩
    · exact ⟨call', (update_of_ne heq ..).trans hc', rfl, rfl, rfl⟩
  exact { hi with
    group := by
      intro ek c' hc'
      obtain ⟨call', hcall', hek⟩ := hi.group ek c' hc'
      obtain ⟨call'', hcall'', -, -, hek'⟩ := hcalls c' call' hcall'
      exact ⟨call'', hcall'', hek'.trans hek⟩
    fresh := by
      intro c' call' hc'
      simp only [Sys.setLoad, update_apply] at hc'
      split at hc'
      · rename_i heq
        exact heq ▸ hi.fresh c call hc
      · exact hi.fresh c' call' hc'
    call := by
      intro c' call' hc'
      simp only [Sys.setLoad, update_apply] at hc'
      split at hc'
      · cases hc'
        exact ⟨(hi.call c call hc).keyed, hload⟩
      · exact hi.call c' call' hc'
    op := by
      intro p
      refine Later.refl.op (fun c' call' hc' => ?_) (fun _ => le_rfl) (hi.op p)
      obtain ⟨call'', hcall'', htarget, hgen, -⟩ := hcalls c' call' hc'
      exact ⟨call'', hcall'', htarget, hgen⟩ }

end Inv

theorem save_same (cfg : Config) (s : Sys α) (ek : Bytes) (a : Answer α) (saved : Saved) :
    (s.save cfg ek a saved).view = s.view ∧ (s.save cfg ek a saved).calls = s.calls ∧
    (s.save cfg ek a saved).completed = s.completed ∧ (s.save cfg ek a saved).ops = s.ops := by
  simp only [Sys.save]
  split
  · exact ⟨rfl, rfl, rfl, rfl⟩
  · exact ⟨rfl, rfl, rfl, rfl⟩
  · exact ⟨rfl, rfl, rfl, rfl⟩

/-! ## The steps -/

theorem mark_le (hi : Inv cfg s) (t : Target) (gen : Nat) :
    s.view.mark t gen ≤ s.history.length := by
  simp only [View.mark]
  split
  · exact hi.covered t.ns gen
  · exact Nat.zero_le _

theorem View.Owned.of_keyed (ho : u.Owned cfg ek a) (hk : u.Keyed cfg t gen ek) :
    a.After u.history (u.mark t gen) t := by
  obtain ⟨t', gen', hk', ha⟩ := ho
  obtain ⟨v, hv⟩ := hk.key
  obtain ⟨v', hv'⟩ := hk'.key
  obtain ⟨rfl, hgen⟩ := Target.effectiveKey_inj hk.tag.1 hk'.tag.1 (hv.symm.trans hv')
  have hmark : u.mark t gen = u.mark t gen' := by
    simp only [View.mark]
    split
    · rename_i hg
      rw [hgen hg]
    · rfl
  rw [hmark]
  exact ha

theorem cover_le {covered : Bytes → Nat → Nat} {ns : Bytes} {g n : Nat}
    (hcovered : ∀ ns c, covered ns c ≤ gen) (hn : n < gen) (ns' : Bytes) (c : Nat) :
    cover covered ns g n ns' c ≤ gen := by
  simp only [cover]
  split
  · exact Nat.max_le.mpr ⟨hcovered ns' c, hn⟩
  · exact hcovered ns' c

theorem le_update_max (f : Bytes → Nat) (ns : Bytes) (g : Nat) (ns' : Bytes) :
    f ns' ≤ update f ns (max (f ns) g) ns' := by
  simp only [update_apply]
  split
  · rename_i heq
    rw [heq]
    exact Nat.le_max_left _ _
  · exact le_rfl

theorem later_write (w : Write Target α) : Later s.view ⟨w :: s.history, s.gen, s.covered⟩ :=
  ⟨List.suffix_cons _ _, fun _ => le_rfl, fun _ _ => le_rfl, fun _ _ _ => rfl⟩

theorem later_bump (hg : s.gen ns < g) :
    Later s.view ⟨s.history, update s.gen ns g, cover s.covered ns g n⟩ where
  history := List.suffix_rfl
  gen ns' := by
    simp only [update_apply]
    split
    · rename_i heq
      rw [heq]
      exact hg.le
    · exact le_rfl
  covered_le ns' c := by
    simp only [cover]
    split
    · exact Nat.le_max_left _ _
    · exact le_rfl
  covered ns' c hc := by
    simp only [cover]
    refine if_neg fun hcov => ?_
    obtain ⟨rfl, hgc⟩ := hcov
    have hle : g ≤ s.gen ns' := hgc.trans hc
    exact absurd hg (Nat.not_lt.mpr hle)

/-- What a call can do: its next state, and that of the system. -/
inductive Moves (cfg : Config) (s : Sys α) : Op α → Sys α → Op α → Prop
  | read {t : Target} (skip : Bool) (hadmits : cfg.Admits t) :
    Moves cfg s .idle s
    (.read t (if skip then .direct else if t.generational then .current else .key 0))
  | current {t : Target} {gen : Nat} (hgen : s.completed t.ns ≤ gen ∧ gen ≤ s.gen t.ns) :
    Moves cfg s (.read t .current) s (.read t (.key gen))
  /-- The generation or the key version is unknown. -/
  | bypass {t : Target} {stage : Read α} : Moves cfg s (.read t stage) s (.read t .direct)
  | key {t : Target} {gen : Nat} (version : Nat) :
    Moves cfg s (.read t (.key gen)) s (.read t (.lookup gen (t.effectiveKey cfg version gen)))
  | hit {t : Target} {gen : Nat} {ek : Bytes} {e : Entry α} (he : s.storage ek = some e) :
    Moves cfg s (.read t (.lookup gen ek)) s (.read t (.done e.answer))
  | miss {t : Target} {gen : Nat} {ek : Bytes} : Moves cfg s (.read t (.lookup gen ek)) s
    (.read t (.share gen ek))
  /-- A corrupt entry is deleted. -/
  | delete {t : Target} {gen : Nat} {ek : Bytes} :
    Moves cfg s (.read t (.lookup gen ek)) { s with storage := update s.storage ek none }
      (.read t (.share gen ek))
  | fail {t : Target} {stage : Read α} : Moves cfg s (.read t stage) s (.read t (.done .failed))
  | join {t : Target} {gen c : Nat} {ek : Bytes} (hc : s.group ek = some c) :
    Moves cfg s (.read t (.share gen ek)) s (.read t (.wait gen c))
  | lead {t : Target} {gen : Nat} {ek : Bytes} :
    Moves cfg s (.read t (.share gen ek))
      { s with
        group := update s.group ek (some s.nextCall)
        calls := update s.calls s.nextCall (some ⟨t, gen, ek, .fill⟩)
        nextCall := s.nextCall + 1 }
      (.read t (.wait gen s.nextCall))
  | alone {t : Target} {gen : Nat} {ek : Bytes} : Moves cfg s (.read t (.share gen ek)) s
    (.read t (.unshared gen ek .fill))
  | shared {t : Target} {gen c : Nat} {call : Call α} {a : Answer α} (hcall : s.calls c = some call)
    (hload : call.load = .done a) : Moves cfg s (.read t (.wait gen c)) s (.read t (.done a))
  | fill {t : Target} {gen : Nat} {ek : Bytes} (ok : Bool) :
    Moves cfg s (.read t (.unshared gen ek .fill)) s
    (.read t (.unshared gen ek (.save (s.answer t ok))))
  | save {t : Target} {gen : Nat} {ek : Bytes} {a : Answer α} (saved : Saved) :
    Moves cfg s (.read t (.unshared gen ek (.save a))) (s.save cfg ek a saved)
    (.read t (.done (saveAnswer cfg a saved)))
  | direct {t : Target} (ok : Bool) : Moves cfg s (.read t .direct) s
    (.read t (.done (s.answer t ok)))
  | write {t : Target} {v : Option α} : Moves cfg s .idle s (.write t v .store)
  | store {t : Target} {v : Option α} :
    Moves cfg s (.write t v .store) { s with history := ⟨t, v⟩ :: s.history }
      (.write t v (.bump s.history.length))
  | bump {t : Target} {v : Option α} {n g : Nat} (hg : s.gen t.ns < g) :
    Moves cfg s (.write t v (.bump n))
      { s with gen := update s.gen t.ns g, covered := cover s.covered t.ns g n }
        (.write t v (.applied n g))
  | bumped {t : Target} {v : Option α} {n g : Nat} :
    Moves cfg s (.write t v (.applied n g))
      { s with completed := update s.completed t.ns (max (s.completed t.ns) g) }
        (.write t v (.done n g))
  | bumpFailed {t : Target} {v : Option α} {stage : Bumping} : Moves cfg s (.write t v stage) s
    (.write t v .failed)

theorem moves_of_move {m : Move α} (hmove : s.move cfg x m = some (s', y)) :
    Moves cfg s x s' y := by
  unfold Sys.move at hmove
  split at hmove
  case h_1 skip =>
    split at hmove <;> cases hmove
    exact .read skip ‹_›
  case h_2 =>
    split at hmove <;> cases hmove
    exact .current ‹_›
  case h_3 =>
    cases hmove
    exact .bypass
  case h_4 version =>
    cases hmove
    exact .key version
  case h_5 =>
    split at hmove <;> cases hmove
    exact .bypass
  case h_6 =>
    split at hmove <;> cases hmove
    · exact .hit ‹_›
    · exact .miss
  case h_7 deleted =>
    split at hmove <;> cases hmove
    · cases deleted with
      | true => exact .delete
      | false => exact .miss
    · exact .fail
  case h_8 =>
    cases hmove
    split
    · exact .miss
    · exact .fail
  case h_9 =>
    cases hmove
    exact .fail
  case h_10 =>
    split at hmove <;> cases hmove
    · exact .join ‹_›
    · exact .lead
  case h_11 =>
    split at hmove <;> cases hmove
    split
    · exact .alone
    · exact .fail
  case h_12 =>
    cases hmove
    exact .fail
  case h_13 =>
    split at hmove
    · split at hmove <;> cases hmove
      exact .shared ‹_› ‹_›
    · cases hmove
  case h_14 =>
    cases hmove
    exact .fail
  case h_15 ok =>
    cases hmove
    exact .fill ok
  case h_16 saved =>
    cases hmove
    exact .save saved
  case h_17 ok =>
    cases hmove
    exact .direct ok
  case h_18 =>
    cases hmove
    exact .write
  case h_19 =>
    cases hmove
    exact .store
  case h_20 =>
    split at hmove <;> cases hmove
    exact .bump ‹_›
  case h_21 =>
    cases hmove
    exact .bumped
  case h_22 =>
    cases hmove
    exact .bumpFailed
  case h_23 =>
    cases hmove
    exact .bumpFailed
  case h_24 => cases hmove

theorem Inv.move (hi : Inv cfg s) (hx : x.Ok s.view s.calls s.completed cfg)
    (hmoves : Moves cfg s x s' y) (p : Nat) :
    Inv cfg (s'.setOp p y) := by
  cases hmoves with
  | read skip hadmits =>
    refine hi.setOp ?_
    split
    · trivial
    · split
      · rename_i hg
        exact ⟨hg, hadmits⟩
      · rename_i hg
        exact ⟨hadmits, fun hg' => absurd hg' hg⟩
  | current hgen => exact hi.setOp ⟨hx.2, fun _ => hgen.2⟩
  | bypass => exact hi.setOp trivial
  | key version => exact hi.setOp ⟨hx, _, rfl⟩
  | hit he => exact hi.setOp (((hi.storage _ _ he).of_keyed hx).mono (Nat.zero_le _))
  | miss => exact hi.setOp hx
  | delete => exact (hi.drop _).setOp hx
  | fail => exact hi.setOp trivial
  | join hc =>
    obtain ⟨call, hcall, hek⟩ := hi.group _ _ hc
    refine hi.setOp ⟨call, hcall, ?_⟩
    have hk := (hi.call _ call hcall).keyed
    obtain ⟨v, hv⟩ := hk.key
    obtain ⟨v', hv'⟩ := hx.key
    obtain ⟨htarget, hgen⟩ :=
      Target.effectiveKey_inj hk.tag.1 hx.tag.1 (hv.symm.trans (hek.trans hv'))
    exact ⟨htarget, htarget ▸ hgen⟩
  | lead => exact (hi.newCall hx).setOp ⟨_, update_self .., rfl, fun _ => rfl⟩
  | alone => exact hi.setOp ⟨hx, trivial⟩
  | shared hcall hload =>
    obtain ⟨call', hcall', htarget, -⟩ := hx
    cases hcall.symm.trans hcall'
    have hok := (hi.call _ _ hcall).load
    rw [hload] at hok
    refine hi.setOp ?_
    rw [← htarget]
    exact Answer.After.mono hok (Nat.zero_le _)
  | fill ok => exact hi.setOp ⟨hx.1, answer_after _ (mark_le hi _ _)⟩
  | save saved =>
    refine (hi.save hx.1 hx.2 saved).setOp ?_
    rw [(save_same cfg s _ _ saved).1]
    exact (saveAnswer_after hx.2 saved).mono (Nat.zero_le _)
  | direct ok => exact hi.setOp (answer_after _ (Nat.zero_le _))
  | write => exact hi.setOp trivial
  | store =>
    exact (hi.grow (later_write _) (fun ns c => Nat.le_succ_of_le (hi.covered ns c))
      fun _ => le_rfl).setOp
      (.inl ⟨rfl, rfl⟩)
  | bump hg =>
    refine (hi.grow (later_bump hg) (cover_le hi.covered (History.At.lt hx)) fun _ => le_rfl).setOp
      ⟨hx, ?_, ?_⟩
    · simp
    · intro c hc
      simp only [cover, true_and, if_pos hc]
      omega
  | bumped => exact (hi.grow Later.refl hi.covered (le_update_max _ _ _)).setOp ⟨hx, by simp⟩
  | bumpFailed => exact hi.setOp trivial

theorem Inv.callMove (hi : Inv cfg s) {c : Nat} {call : Call α} (hc : s.calls c = some call)
    {m : CallMove} {load : Load α} (hmove : s.callMove cfg call call.load m = some (s', load)) :
    Inv cfg (s'.setLoad c call load) := by
  have hok := hi.call c call hc
  have hload := hok.load
  generalize call.load = load₀ at hload hmove
  unfold Sys.callMove at hmove
  split at hmove
  · cases hmove
    exact hi.setLoad hc (answer_after _ (mark_le hi _ _))
  · cases hmove
    rename_i a saved
    obtain ⟨hview, hcalls, -, -⟩ := save_same cfg s call.ek a saved
    refine (hi.save hok.keyed hload saved).setLoad (hcalls ▸ hc) ?_
    rw [hview]
    exact saveAnswer_after hload saved
  · cases hmove
    have hi' : Inv cfg { s with group := update s.group call.ek none } := by
      refine { hi with group := fun ek c' hc' => ?_ }
      simp only [update_apply] at hc'
      split at hc'
      · cases hc'
      · exact hi.group ek c' hc'
    refine hi'.setLoad hc ?_
    exact hload
  · cases hmove

theorem Inv.step (hi : Inv cfg s) {act : Action α} (hstep : s.step cfg act = some s') :
    Inv cfg s' := by
  cases act with
  | op p m =>
    obtain ⟨⟨s₁, y⟩, hmove, rfl⟩ := Option.map_eq_some_iff.mp hstep
    exact hi.move (hi.op p) (moves_of_move hmove) p
  | call c m =>
    obtain ⟨call, hc, hrest⟩ := Option.bind_eq_some_iff.mp hstep
    obtain ⟨⟨s₁, load⟩, hmove, rfl⟩ := Option.map_eq_some_iff.mp hrest
    exact hi.callMove hc hmove
  | evict ek =>
    cases hstep
    exact hi.drop ek
  | land i =>
    obtain ⟨⟨ek, e⟩, hget, rfl⟩ := Option.map_eq_some_iff.mp hstep
    have hmem := List.mem_of_getElem? hget
    have hput := hi.put (hi.late ek e hmem)
    exact { hput with late := fun ek' e' hmem' => hi.late ek' e' (List.mem_of_mem_eraseIdx hmem') }
  | advance ns g =>
    simp only [Sys.step] at hstep
    split at hstep <;> cases hstep
    rename_i hg
    refine hi.grow ⟨List.suffix_rfl, fun ns' => ?_, fun _ _ => le_rfl, fun _ _ _ => rfl⟩
      hi.covered fun _ => le_rfl
    simp only [update_apply]
    split
    · rename_i heq
      rw [heq]
      exact hg.le
    · exact le_rfl

theorem inv_init (history : History Target α) (seed : Bytes → Nat) :
    Inv cfg (Sys.init history seed) where
  covered _ _ := Nat.zero_le _
  storage := nofun
  late := nofun
  group := nofun
  fresh := nofun
  call := nofun
  op _ := trivial

/-! ## The reads that start later -/

/-- The history, the bumps that have returned and what they cover only grow. -/
structure Grows (s s' : Sys α) : Prop where
  history : s.history <:+ s'.history
  covered : ∀ ns c, s.covered ns c ≤ s'.covered ns c
  completed : ∀ ns, s.completed ns ≤ s'.completed ns

theorem Grows.of_eq (hhistory : s'.history = s.history) (hcovered : s'.covered = s.covered)
    (hcompleted : s'.completed = s.completed) : Grows s s' where
  history := hhistory ▸ List.suffix_rfl
  covered _ _ := by rw [hcovered]
  completed _ := by rw [hcompleted]

theorem grows_save (cfg : Config) (ek : Bytes) (a : Answer α) (saved : Saved) :
    Grows s (s.save cfg ek a saved) := by
  simp only [Sys.save]
  split
  · exact .of_eq rfl rfl rfl
  · exact .of_eq rfl rfl rfl
  · exact .of_eq rfl rfl rfl

theorem grows_move (hmoves : Moves cfg s x s' y) : s'.ops = s.ops ∧ Grows s s' := by
  cases hmoves with
  | save saved => exact ⟨(save_same cfg s _ _ _).2.2.2, grows_save cfg _ _ _⟩
  | store => exact ⟨rfl, List.suffix_cons _ _, fun _ _ => le_rfl, fun _ => le_rfl⟩
  | bump hg => exact ⟨rfl, List.suffix_rfl, (later_bump hg).covered_le, fun _ => le_rfl⟩
  | bumped => exact ⟨rfl, List.suffix_rfl, fun _ _ => le_rfl, le_update_max _ _ _⟩
  | _ => exact ⟨rfl, .of_eq rfl rfl rfl⟩

/-- What a read has got that began after a bump to `g` had returned, which covers write `n`. -/
def Read.Since (h : History Target α) (n g : Nat) (t : Target) : Read α → Prop
  | .current | .direct => True
  | .key gen | .lookup gen _ | .share gen _ | .wait gen _ | .unshared gen _ _ => g ≤ gen
  | .done a => a.After h (n + 1) t

def Op.Since (h : History Target α) (ns : Bytes) (n g : Nat) : Op α → Prop
  | .read t stage => t.generational = true → t.ns = ns → stage.Since h n g t
  | _ => True

theorem Op.Since.suffix (hx : x.Since h ns n g) (hs : h <:+ h') : x.Since h' ns n g := by
  cases x with
  | idle | write t v stage => trivial
  | read t stage =>
    intro hgen hns
    cases stage with
    | done a => exact Answer.After.suffix (hx hgen hns) hs
    | _ => exact hx hgen hns

theorem since_move (hi : Inv cfg s) (hcovered : ∀ c, g ≤ c → n < s.covered ns c)
    (hcompleted : g ≤ s.completed ns) (hlength : n < s.history.length)
    (hx : x.Ok s.view s.calls s.completed cfg) (hsince : x.Since s.history ns n g)
    (hmoves : Moves cfg s x s' y) : y.Since s'.history ns n g := by
  -- what is tagged with `g` or later was read after the write
  have hafter : ∀ t gen (a : Answer α), t.generational = true → t.ns = ns → g ≤ gen →
      a.After s.history (s.view.mark t gen) t → a.After s.history (n + 1) t := by
    rintro t gen a hgen rfl hg ha
    rw [View.mark, if_pos hgen] at ha
    exact ha.mono (hcovered gen hg)
  cases hmoves with
  | read skip hadmits =>
    intro hgen _
    rw [if_pos hgen]
    split
    · trivial
    · trivial
  | current hbounds =>
    -- `Current` answers with no less than the bump
    intro _ hns
    exact (hns ▸ hcompleted).trans hbounds.1
  | bypass => exact fun _ _ => trivial
  | key version => exact hsince
  | hit he =>
    exact fun hgen hns => hafter _ _ _ hgen hns (hsince hgen hns) ((hi.storage _ _ he).of_keyed hx)
  | miss => exact hsince
  | delete => exact hsince
  | fail => exact fun _ _ => trivial
  | join hc => exact hsince
  | lead => exact hsince
  | alone => exact hsince
  | shared hcall hload =>
    -- the answer of the shared fill is under the same generation
    obtain ⟨call', hcall', htarget, hgen'⟩ := hx
    cases hcall.symm.trans hcall'
    have hok := (hi.call _ _ hcall).load
    rw [hload] at hok
    intro hgen hns
    rw [htarget, hgen' hgen] at hok
    exact hafter _ _ _ hgen hns (hsince hgen hns) hok
  | fill ok => exact hsince
  | save saved =>
    intro hgen hns
    have hanswer := hafter _ _ _ hgen hns (hsince hgen hns) hx.2
    exact (saveAnswer_after hanswer _).suffix (grows_save cfg _ _ _).history
  | direct ok => exact fun _ _ => answer_after _ hlength
  | write => trivial
  | store => trivial
  | bump hg => trivial
  | bumped => trivial
  | bumpFailed => trivial

structure Follows (cfg : Config) (ns : Bytes) (n g : Nat) (started : Nat → Prop) (s : Sys α) :
    Prop where
  inv : Inv cfg s
  covered : ∀ c, g ≤ c → n < s.covered ns c
  completed : g ≤ s.completed ns
  length : n < s.history.length
  since : ∀ q, started q → (s.ops q).Since s.history ns n g

namespace Follows

variable {started : Nat → Prop}

theorem same (hf : Follows cfg ns n g started s) (hi : Inv cfg s') (hops : s'.ops = s.ops)
    (hgrows : Grows s s') :
    Follows cfg ns n g started s' where
  inv := hi
  covered c hc := (hf.covered c hc).trans_le (hgrows.covered ns c)
  completed := hf.completed.trans (hgrows.completed ns)
  length := hf.length.trans_le hgrows.history.length_le
  since q hq := by
    rw [hops]
    exact (hf.since q hq).suffix hgrows.history

theorem step (hf : Follows cfg ns n g started s) {act : Action α}
    (hstep : s.step cfg act = some s') : Follows cfg ns n g started s' := by
  have hi' := hf.inv.step hstep
  cases act with
  | op p m =>
    obtain ⟨⟨s₁, y⟩, hmove, rfl⟩ := Option.map_eq_some_iff.mp hstep
    obtain ⟨hops, hgrows⟩ := grows_move (moves_of_move hmove)
    exact {
      inv := hi'
      covered := fun c hc => (hf.covered c hc).trans_le (hgrows.covered ns c)
      completed := hf.completed.trans (hgrows.completed ns)
      length := hf.length.trans_le hgrows.history.length_le
      since := by
        intro q hq
        by_cases hqp : q = p
        · subst hqp
          simpa [Sys.setOp] using since_move hf.inv hf.covered hf.completed hf.length (hf.inv.op q)
            (hf.since q hq) (moves_of_move hmove)
        · have hsame : (s₁.setOp p y).ops q = s.ops q := by simp [Sys.setOp, hqp, hops]
          rw [hsame]
          exact (hf.since q hq).suffix hgrows.history }
  | call c m =>
    obtain ⟨call, hc, hrest⟩ := Option.bind_eq_some_iff.mp hstep
    obtain ⟨⟨s₁, load⟩, hmove, rfl⟩ := Option.map_eq_some_iff.mp hrest
    have hsame : s₁.ops = s.ops ∧ Grows s s₁ := by
      unfold Sys.callMove at hmove
      split at hmove <;> cases hmove
      · exact ⟨rfl, .of_eq rfl rfl rfl⟩
      · exact ⟨(save_same cfg s _ _ _).2.2.2, grows_save cfg _ _ _⟩
      · exact ⟨rfl, .of_eq rfl rfl rfl⟩
    exact hf.same hi' hsame.1 ⟨hsame.2.history, hsame.2.covered, hsame.2.completed⟩
  | evict ek =>
    cases hstep
    exact hf.same hi' rfl (.of_eq rfl rfl rfl)
  | land i =>
    obtain ⟨⟨ek, e⟩, -, rfl⟩ := Option.map_eq_some_iff.mp hstep
    exact hf.same hi' rfl (.of_eq rfl rfl rfl)
  | advance ns' g' =>
    simp only [Sys.step] at hstep
    split at hstep <;> cases hstep
    exact hf.same hi' rfl (.of_eq rfl rfl rfl)

theorem run (hf : Follows cfg ns n g started s) {acts : List (Action α)}
    (hrun : (Sys.machine cfg).run s acts = some s') : Follows cfg ns n g started s' :=
  Machine.invariant_run (fun _ _ => True) (Follows cfg ns n g started)
    (fun _ _ _ hf _ hstep => hf.step hstep) hf (Machine.along_of_mem (fun _ _ _ => trivial) s) hrun

end Follows

theorem inv_run (hi : Inv cfg s) {acts : List (Action α)}
    (hrun : (Sys.machine cfg).run s acts = some s') :
    Inv cfg s' :=
  Machine.invariant_run (fun _ _ => True) (Inv cfg) (fun _ _ _ hi _ hstep => hi.step hstep) hi
    (Machine.along_of_mem (fun _ _ _ => trivial) s) hrun

/-- In any run, a read returns only what the source held for its own tenant, namespace and key. And
when a write to the source, number `n`, and a `Bump` of its namespace after it have returned, a read
through the namespace that starts later returns what its place in the source held after the
write. -/
theorem read_through_fresh (cfg : Config) (history : History Target α) (seed : Bytes → Nat)
    (as bs : List (Action α)) (s₁ s₂ : Sys α)
    (h₁ : (Sys.machine cfg).run (.init history seed) as = some s₁)
    (h₂ : (Sys.machine cfg).run s₁ bs = some s₂) (q : Nat) (t : Target) (val : Stored α)
    (hval : s₂.ops q = .read t (.done (.value val))) :
    s₂.history.At val.stamp ⟨t, some val.value⟩ ∧
    ∀ p t' v n g, t.generational = true → s₁.ops p = .write t' v (.done n g) → t'.ns = t.ns →
      s₁.ops q = .idle →
      s₁.history.At n ⟨t', v⟩ ∧ s₂.history.ReadAfter (n + 1) t (some val) := by
  have hi₁ := inv_run (inv_init history seed) h₁
  have hi₂ := inv_run hi₁ h₂
  constructor
  · have hread := hi₂.op q
    rw [hval] at hread
    exact History.ReadAfter.stored hread
  · intro p t' v n g hgen hp hns hq
    have hbump := hi₁.op p
    rw [hp] at hbump
    obtain ⟨⟨hat, -, hcovered⟩, hcompleted⟩ := hbump
    have hf₁ : Follows cfg t'.ns n g (fun q => s₁.ops q = .idle) s₁ := {
      inv := hi₁
      covered := hcovered
      completed := hcompleted
      length := hat.lt
      since := by
        intro q hq
        rw [hq]
        trivial }
    have hread := (hf₁.run h₂).since q hq
    rw [hval] at hread
    exact ⟨hat, hread hgen hns.symm⟩

/-! ## A run -/

private def cacheConfig : Config where
  generations := true
  direct key := key = [120]
  direct_generationKey ns gen key _ := decide_eq_false fun heq => by
    have hlen := congrArg List.length heq
    simp [generationKey, frames, frame] at hlen
    omega
  keyNamespace := true
  keyVersion := false
  negativeTtl := true
  failOpen := true

private def item : Target := ⟨[116], true, [110], [107]⟩

private def other : Target := ⟨[116], false, [], [120]⟩

/-- A shared fill has read the old value when the source is written and the namespace bumped. -/
private def slowFill : List (Action Nat) :=
  [.op 0 (.read item false), .op 0 (.current (some 7)), .op 0 (.key (some 0)), .op 0 (.lookup .ok),
    .op 0 (.share .ok), .call 0 (.fill true), .op 1 (.write item (some 2)), .op 1 .store,
    .op 1 (.bump 8), .op 1 .bumped]

/-- The old value is stored after that; a later read finds nothing under its own key. Another call
asks the cache directly. -/
private def readAfterBump : List (Action Nat) :=
  [.op 2 (.read item false), .call 0 (.save .ok), .op 2 (.current (some 8)), .op 2 (.key (some 0)),
    .op 2 (.lookup .ok), .op 2 (.share .ok), .call 1 (.fill true), .call 0 .finish,
    .call 1 (.save .late), .call 1 .finish, .op 2 .wait,
    .op 0 .wait, .op 3 (.read other false), .op 3 (.key (some 0)), .op 3 (.lookup .ok),
      .op 3 (.share .ok),
    .call 2 (.fill true), .call 2 (.save .ok), .call 2 .finish, .op 3 .wait]

theorem read_through_fresh_slowFill :
    ∃ s₁ s₂ : Sys Nat,
      (Sys.machine cacheConfig).run (.init [⟨item, some 1⟩] fun _ => 7) slowFill = some s₁ ∧
      (Sys.machine cacheConfig).run s₁ readAfterBump = some s₂ ∧
      s₂.ops 0 = .read item (.done (.value ⟨1, 0⟩)) ∧
        s₂.ops 2 = .read item (.done (.value ⟨2, 1⟩)) ∧
      s₂.ops 3 = .read other (.done .missing) ∧
      s₁.history.At 1 ⟨item, some 2⟩ ∧ s₂.history.ReadAfter 2 item (some ⟨2, 1⟩) := by
  have hrun : (((Sys.machine cacheConfig).run (.init [⟨item, some 1⟩] fun _ => 7)
    slowFill).bind fun s₁ =>
      ((Sys.machine cacheConfig).run s₁ readAfterBump).map fun s₂ =>
        [s₁.ops 1, s₁.ops 2, s₂.ops 0, s₂.ops 2, s₂.ops 3]) =
      some [.write item (some 2) (.done 1 8), .idle, .read item (.done (.value ⟨1, 0⟩)),
        .read item (.done (.value ⟨2, 1⟩)), .read other (.done .missing)] := by decide +kernel
  obtain ⟨s₁, h₁, hrest⟩ := Option.bind_eq_some_iff.mp hrun
  obtain ⟨s₂, h₂, hvals⟩ := Option.map_eq_some_iff.mp hrest
  simp only [List.cons.injEq, and_true] at hvals
  obtain ⟨hwrite, hidle, hold, hnew, hother⟩ := hvals
  have hthm := read_through_fresh cacheConfig _ _ slowFill readAfterBump s₁ s₂ h₁ h₂ 2 item _ hnew
  exact ⟨s₁, s₂, h₁, h₂, hold, hnew, hother, hthm.2 1 item _ 1 8 rfl hwrite rfl hidle⟩

end GoAtlas.Cache
