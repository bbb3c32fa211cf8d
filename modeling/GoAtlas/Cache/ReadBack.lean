import GoAtlas.Cache.Generations
import GoAtlas.Lib.Trim

/-!
# Reading back what was cached

The calls of a `Cache` one after the other, on a storage that does not fail and answers with the
bytes last saved. The version and the namespace of the keys are fixed. Values and negative entries
share the bytes of the storage: a negative entry is a single zero byte, and every read path tells it
from a value by that. The last field of the state is no part of the cache: it notes what was last
written for a key.
-/

namespace GoAtlas.Cache.ReadBack

open Lib

variable {α : Type}

/-- A key that is not blank; the others panic. -/
structure Key where
  bytes : Bytes
  notEmpty : trimSpace bytes ≠ []
  deriving DecidableEq

structure Config (α : Type) where
  serialize : α → Option Bytes
  deserialize : Bytes → Option α
  keyVersion : Option Nat
  keyNamespace : Option Bytes
  negativeTtl : Bool
  failOpen : Bool
  isolated : Bool

def Config.keyPrefix (c : Config α) : Bytes :=
  (c.keyVersion.elim [] versionPrefix) ++ c.keyNamespace.elim [] namespacePrefix

def Config.effectiveKey (c : Config α) (key : Key) : Bytes := c.keyPrefix ++ key.bytes

abbrev Storage := Bytes → Option Bytes

def Storage.save (st : Storage) (ek data : Bytes) : Storage := Function.update st ek (some data)

def Storage.delete (st : Storage) (ek : Bytes) : Storage := Function.update st ek none

def negativeSentinel : Bytes := [0x00]

def isNegativeSentinel (data : Bytes) : Bool := data == negativeSentinel

inductive Err where
  | missing
  | fallback
  | serialize
  | deserialize
  deriving DecidableEq

inductive Fallback (α : Type) where
  | value (v : α)
  | nil
  | missing
  | failed

structure Loaded (α : Type) where
  value : α
  data : Bytes

variable (c : Config α)

/-- The negative entry of a fallback that found nothing. -/
def saveNegative (st : Storage) (ek : Bytes) : Storage :=
  if c.negativeTtl then st.save ek negativeSentinel else st

def loadAndStore (st : Storage) (ek : Bytes) (fb : Fallback α) : Storage × Except Err (Loaded α) :=
  match fb with
  | .failed => (st, .error .fallback)
  | .missing => (saveNegative c st ek, .error .missing)
  | .nil => (saveNegative c st ek, .error .missing)
  | .value v =>
    match c.serialize v with
    | none => (st, .error .serialize)
    | some data => (st.save ek data, .ok ⟨v, data⟩)

def directFallback (fb : Fallback α) : Except Err α :=
  match fb with
  | .failed => .error .fallback
  | .missing => .error .missing
  | .nil => .error .missing
  | .value v => .ok v

/-- The value handed out after the fallback: a private copy if results are isolated. -/
def copyOut (ld : Loaded α) : Except Err α :=
  if c.isolated then (c.deserialize ld.data).elim (.error .deserialize) .ok else .ok ld.value

def runFallback (st : Storage) (ek : Bytes) (fb : Fallback α) : Storage × Except Err α :=
  match loadAndStore c st ek fb with
  | (st, .error e) => (st, .error e)
  | (st, .ok ld) => (st, copyOut c ld)

inductive Lookup where
  | hit (data : Bytes)
  | negative
  | miss

def lookupRaw (st : Storage) (ek : Bytes) : Lookup :=
  match st ek with
  | none => .miss
  | some val => if isNegativeSentinel val then .negative else .hit val

/-- The storage, the answer, and whether the fallback ran. -/
def getWithFallback (st : Storage) (fresh : Bool) (key : Key) (fb : Fallback α) :
    Storage × Except Err α × Bool :=
  if fresh then (st, directFallback fb, true)
  else
    let ek := c.effectiveKey key
    match lookupRaw st ek with
    | .negative => (st, .error .missing, false)
    | .miss =>
      let (st, r) := runFallback c st ek fb
      (st, r, true)
    | .hit data =>
      match c.deserialize data with
      | some v => (st, .ok v, false)
      | none =>
        if !c.failOpen then (st, .error .deserialize, false)
        else
          let (st, r) := runFallback c (st.delete ek) ek fb
          (st, r, true)

def save (st : Storage) (key : Key) (v : α) : Storage × Except Err Unit :=
  match c.serialize v with
  | none => (st, .error .serialize)
  | some data => (st.save (c.effectiveKey key) data, .ok ())

def «exists» (st : Storage) (key : Key) : Bool :=
  match st (c.effectiveKey key) with
  | none => false
  | some data => !isNegativeSentinel data

def get (st : Storage) (key : Key) : Storage × Except Err α :=
  match st (c.effectiveKey key) with
  | none => (st, .error .missing)
  | some data =>
    if isNegativeSentinel data then (st, .error .missing)
    else match c.deserialize data with
      | some v => (st, .ok v)
      | none =>
        if c.failOpen then (st.delete (c.effectiveKey key), .error .missing)
          else (st, .error .deserialize)

def uniqueKeys (keys : List Key) : List Key :=
  keys.foldl (fun seen key => if seen.any fun k => c.effectiveKey k == c.effectiveKey key then seen
    else seen ++ [key]) []

def getManyRaw (st : Storage) (keys : List Key) : List (Key × Bytes) :=
  (uniqueKeys c keys).filterMap fun key => (st (c.effectiveKey key)).bind fun val =>
    if isNegativeSentinel val then none else some (key, val)

/-- The loop of `GetManyT` over what was found; a Go map is visited in any order, here in the order
of the keys. -/
def decodeMany : Storage → List (Key × Bytes) → Storage × Except Err (List (Key × α))
  | st, [] => (st, .ok [])
  | st, (key, data) :: raw =>
    match c.deserialize data with
    | some v =>
      match decodeMany st raw with
      | (st, .ok out) => (st, .ok ((key, v) :: out))
      | (st, .error e) => (st, .error e)
    | none =>
      if !c.failOpen then (st, .error .deserialize)
      else decodeMany (st.delete (c.effectiveKey key)) raw

def getManyT (st : Storage) (keys : List Key) : Storage × Except Err (List (Key × α)) :=
  decodeMany c st (getManyRaw c st keys)

/-! ## Runs -/

inductive Entry (α : Type) where
  | value (v : α)
  | negative

structure State (α : Type) where
  storage : Storage
  /-- The last write of a key, unless the entry has been removed since. -/
  last : Key → Option (Entry α)

inductive Op (α : Type) where
  | save (key : Key) (v : α)
  | getWithFallback (key : Key) (fresh : Bool) (fb : Fallback α)
  | exists (key : Key)
  | get (key : Key)
  | getMany (keys : List Key)
  | delete (key : Key)
  | deleteMany (keys : List Key)
  | expire (key : Key)

def Fallback.entry (fb : Fallback α) : Option (Entry α) :=
  match fb with
  | .failed => none
  | .missing | .nil => if c.negativeTtl then some .negative else none
  | .value v => (c.serialize v).map fun _ => .value v

def State.remove (s : State α) (st : Storage) : State α where
  storage := st
  last key := (st (c.effectiveKey key)).bind fun _ => s.last key

def State.step (s : State α) : Op α → State α
  | .save key v =>
    match c.serialize v with
    | none => s
    | some _ => ⟨(ReadBack.save c s.storage key v).1, Function.update s.last key (some (.value v))⟩
  | .getWithFallback key fresh fb =>
    match getWithFallback c s.storage fresh key fb with
    | (st, _, ran) =>
      ⟨st, if ran && !fresh then Function.update s.last key (fb.entry c) else s.last⟩
  | .exists _ => s
  | .get key => s.remove c (ReadBack.get c s.storage key).1
  | .getMany keys => s.remove c (getManyT c s.storage keys).1
  | .delete key => s.remove c (s.storage.delete (c.effectiveKey key))
  | .deleteMany keys =>
    s.remove c (keys.foldl (fun st key => st.delete (c.effectiveKey key)) s.storage)
  | .expire key => s.remove c (s.storage.delete (c.effectiveKey key))

def run (ops : List (Op α)) : State α := ops.foldl (State.step c) ⟨fun _ => none, fun _ => none⟩

/-! ## Keys and entries -/

theorem Config.effectiveKey_inj {key key' : Key} (h : c.effectiveKey key = c.effectiveKey key') :
    key = key' := by
  unfold Config.effectiveKey at h
  have hbytes : key.bytes = key'.bytes := List.append_cancel_left h
  cases key
  cases key'
  simpa using hbytes

/-- The bytes of the storage are those of the last write. -/
def Agrees : Option (Entry α) → Option Bytes → Prop
  | none, d => d = none
  | some .negative, d => d = some negativeSentinel
  | some (.value v), d => ∃ data, c.serialize v = some data ∧ d = some data

def Inv (s : State α) : Prop := ∀ key, Agrees c (s.last key) (s.storage (c.effectiveKey key))

variable {c} {s : State α} {st : Storage} {k : Key}

theorem Inv.update (hinv : Inv c s) {key : Key} {e : Option (Entry α)}
    {d : Option Bytes} (he : Agrees c e d) :
    Inv c ⟨Function.update s.storage (c.effectiveKey key) d, Function.update s.last key e⟩ := by
  intro k
  by_cases hk : k = key
  · subst hk
    simpa using he
  · have hek : c.effectiveKey k ≠ c.effectiveKey key := fun h => hk (c.effectiveKey_inj h)
    simpa [hk, hek] using hinv k

/-! ## Calls that only remove entries -/

def Shrinks (st st' : Storage) : Prop := ∀ ek, st' ek = st ek ∨ st' ek = none

theorem Shrinks.refl (st : Storage) : Shrinks st st := fun _ => .inl rfl

theorem Shrinks.trans {st st' st'' : Storage} (h : Shrinks st st') (h' : Shrinks st' st'') :
    Shrinks st st'' := by
  intro ek
  rcases h' ek with h' | h'
  · rw [h']
    exact h ek
  · exact .inr h'

theorem shrinks_delete (st : Storage) (ek : Bytes) : Shrinks st (st.delete ek) := by
  intro k
  unfold Storage.delete
  by_cases hk : k = ek
  · right
    rw [hk, Function.update_self]
  · left
    rw [Function.update_of_ne hk]

theorem shrinks_deleteMany (keys : List Key) :
    ∀ st : Storage, Shrinks st (keys.foldl (fun st key => st.delete (c.effectiveKey key)) st) := by
  induction keys with
  | nil => exact Shrinks.refl
  | cons key keys ih => exact fun st => (shrinks_delete st _).trans (ih _)

theorem shrinks_get (st : Storage) (key : Key) : Shrinks st (get c st key).1 := by
  unfold get
  split
  · exact .refl st
  · split
    · exact .refl st
    · split
      · exact .refl st
      · split
        · exact shrinks_delete st _
        · exact .refl st

theorem shrinks_decodeMany (raw : List (Key × Bytes)) :
    ∀ st : Storage, Shrinks st (decodeMany c st raw).1 := by
  induction raw with
  | nil => exact Shrinks.refl
  | cons p raw ih =>
    intro st
    obtain ⟨key, data⟩ := p
    unfold decodeMany
    split
    · have hrest := ih st
      split <;> rename_i heq <;> rw [heq] at hrest <;> exact hrest
    · split
      · exact .refl st
      · exact (shrinks_delete st _).trans (ih _)

theorem Inv.remove (hinv : Inv c s) (h : Shrinks s.storage st) :
    Inv c (s.remove c st) := by
  intro key
  show Agrees c ((st (c.effectiveKey key)).bind fun _ => s.last key) (st (c.effectiveKey key))
  have hkey := hinv key
  rcases h (c.effectiveKey key) with hst | hst
  · rw [hst]
    cases hd : s.storage (c.effectiveKey key) with
    | none => rfl
    | some data =>
      rw [hd] at hkey
      exact hkey
  · rw [hst]
    rfl

/-! ## The fallback -/

def Fallback.data (c : Config α) (fb : Fallback α) : Option Bytes :=
  match fb with
  | .failed => none
  | .missing | .nil => if c.negativeTtl then some negativeSentinel else none
  | .value v => c.serialize v

theorem Fallback.agrees (fb : Fallback α) : Agrees c (fb.entry c) (fb.data c) := by
  cases fb with
  | failed => rfl
  | missing | nil =>
    unfold Fallback.entry Fallback.data
    cases c.negativeTtl <;> rfl
  | value v =>
    unfold Fallback.entry Fallback.data
    dsimp only
    cases hv : c.serialize v with
    | none => rfl
    | some data => exact ⟨data, hv, rfl⟩

theorem saveNegative_eq {ek : Bytes} (h : st ek = none) :
    saveNegative c st ek =
      Function.update st ek (if c.negativeTtl then some negativeSentinel else none) := by
  unfold saveNegative
  cases c.negativeTtl with
  | false => simp [← h]
  | true => rfl

theorem runFallback_storage {ek : Bytes} (h : st ek = none) (fb : Fallback α) :
    (runFallback c st ek fb).1 = Function.update st ek (fb.data c) := by
  unfold runFallback loadAndStore Fallback.data
  cases fb with
  | failed => simp [← h]
  | missing | nil => exact saveNegative_eq h
  | value v =>
    dsimp only
    cases c.serialize v with
    | none => simp [← h]
    | some data => rfl

theorem getWithFallback_storage (st : Storage) (key : Key) (fb : Fallback α) :
    ((getWithFallback c st false key fb).1 = st ∧ (getWithFallback c st false key fb).2.2 = false) ∨
      ((getWithFallback c st false key fb).1 = Function.update st (c.effectiveKey key) (fb.data c) ∧
        (getWithFallback c st false key fb).2.2 = true) := by
  unfold getWithFallback lookupRaw
  cases hd : st (c.effectiveKey key) with
  | none =>
    right
    simpa [hd] using runFallback_storage hd fb
  | some data =>
    cases hneg : isNegativeSentinel data with
    | true => simp [hd, hneg]
    | false =>
      cases hv : c.deserialize data with
      | some v => simp [hd, hneg, hv]
      | none =>
        cases hopen : c.failOpen with
        | false => simp [hd, hneg, hv]
        | true =>
          right
          -- the entry is dropped first, so the fallback finds its place empty
          have hdrop : (st.delete (c.effectiveKey key)) (c.effectiveKey key) = none :=
            Function.update_self ..
          have hrun := runFallback_storage (c := c) hdrop fb
          simp only [Storage.delete, Function.update_idem] at hrun
          simpa [hd, hneg, hv, Storage.delete] using hrun

/-! ## Whole runs -/

theorem Inv.step (hinv : Inv c s) (op : Op α) : Inv c (s.step c op) := by
  cases op with
  | save key v =>
    unfold State.step save
    dsimp only
    cases hv : c.serialize v with
    | none => exact hinv
    | some data =>
      have hagrees : Agrees c (some (.value v)) (some data) := ⟨data, hv, rfl⟩
      exact hinv.update hagrees
  | getWithFallback key fresh fb =>
    cases fresh with
    | true => exact hinv
    | false =>
      unfold State.step
      rcases getWithFallback_storage (c := c) s.storage key fb with ⟨hst, hran⟩ | ⟨hst, hran⟩
      · simpa [hst, hran] using hinv
      · simpa [hst, hran] using hinv.update (fb.agrees (c := c))
  | «exists» key => exact hinv
  | get key => exact hinv.remove (shrinks_get s.storage key)
  | getMany keys => exact hinv.remove (shrinks_decodeMany _ s.storage)
  | delete key => exact hinv.remove (shrinks_delete s.storage _)
  | deleteMany keys => exact hinv.remove (shrinks_deleteMany keys s.storage)
  | expire key => exact hinv.remove (shrinks_delete s.storage _)

theorem inv_run (ops : List (Op α)) : Inv c (run c ops) := by
  have hfrom : ∀ s : State α, Inv c s → Inv c (ops.foldl (State.step c) s) := by
    induction ops with
    | nil => exact fun _ h => h
    | cons op ops ih => exact fun s h => ih _ (h.step op)
  exact hfrom _ fun _ => rfl

/-! ## Reads -/

theorem mem_uniqueKeys {keys : List Key} (h : k ∈ keys) : k ∈ uniqueKeys c keys := by
  have hfold : ∀ (keys seen : List Key), k ∈ seen ∨ k ∈ keys → k ∈ keys.foldl
      (fun seen key => if seen.any fun k => c.effectiveKey k == c.effectiveKey key then seen
        else seen ++ [key]) seen := by
    intro keys
    induction keys with
    | nil => simp
    | cons key keys ih =>
      intro seen hk
      apply ih
      dsimp only
      split
      · rename_i hany
        -- the key was seen under the same effective key, so it is the same key
        obtain ⟨k', hk', heq⟩ := List.any_eq_true.mp hany
        have hsame := c.effectiveKey_inj (eq_of_beq heq)
        rcases hk with hk | hk
        · exact .inl hk
        · rcases List.mem_cons.mp hk with rfl | hk
          · exact .inl (hsame ▸ hk')
          · exact .inr hk
      · simp only [List.mem_append, List.mem_cons, List.not_mem_nil, or_false] at hk ⊢
        tauto
  exact hfold keys [] (.inr h)

theorem lookup_filterMap (read : Key → Option Bytes) (k : Key) (keys : List Key) :
    (keys.filterMap fun key => (read key).map (key, ·)).lookup k =
    if k ∈ keys then read k else none := by
  induction keys with
  | nil => rfl
  | cons key keys ih =>
    by_cases hkey : k = key
    · subst hkey
      cases hr : read k with
      | some data => simp [hr]
      | none => simp [hr, ih]
    · have hbeq : (k == key) = false := beq_false_of_ne hkey
      cases hr : read key with
      | none => simp [hr, ih, hkey]
      | some data => simp [hr, List.lookup_cons, hbeq, ih, hkey]

def positive (st : Storage) (key : Key) : Option Bytes :=
  (st (c.effectiveKey key)).bind fun val => if isNegativeSentinel val then none else some val

theorem getManyRaw_eq (st : Storage) (keys : List Key) :
    getManyRaw c st keys = (uniqueKeys c keys).filterMap fun key =>
      (positive (c := c) st key).map (key, ·) := by
  unfold getManyRaw positive
  congr 1
  funext key
  cases st (c.effectiveKey key) with
  | none => rfl
  | some val =>
    dsimp only [Option.bind_some]
    split <;> rfl

theorem decodeMany_ok (st : Storage) (k : Key) : ∀ {raw : List (Key × Bytes)},
    (∀ p ∈ raw, ∃ v, c.deserialize p.2 = some v) →
      ∃ out, decodeMany c st raw = (st, .ok out) ∧ out.lookup k =
        (raw.lookup k).bind c.deserialize := by
  intro raw
  induction raw with
  | nil => exact fun _ => ⟨[], rfl, rfl⟩
  | cons p raw ih =>
    intro hraw
    obtain ⟨key, data⟩ := p
    obtain ⟨v, hv⟩ := hraw (key, data) List.mem_cons_self
    obtain ⟨out, hout, hlookup⟩ := ih fun p hp => hraw p (List.mem_cons_of_mem _ hp)
    refine ⟨(key, v) :: out, ?_, ?_⟩
    · dsimp only at hv
      simp [decodeMany, hv, hout]
    · dsimp only at hv
      by_cases hkey : k = key
      · subst hkey
        simp [hv]
      · simpa [List.lookup_cons, beq_false_of_ne hkey] using hlookup

def Config.Inverts (c : Config α) : Prop :=
  ∀ v data, c.serialize v = some data → c.deserialize data = some v

theorem Inv.decodes (hinv : Inv c s) (hc : c.Inverts) {key : Key} {data : Bytes}
    (h : positive (c := c) s.storage key = some data) : ∃ v, c.deserialize data = some v := by
  have hkey := hinv key
  unfold positive at h
  cases hlast : s.last key with
  | none =>
    rw [hlast] at hkey
    rw [show s.storage (c.effectiveKey key) = none from hkey] at h
    cases h
  | some e =>
    rw [hlast] at hkey
    cases e with
    | negative =>
      rw [show s.storage (c.effectiveKey key) = some negativeSentinel from hkey] at h
      cases h
    | value v =>
      obtain ⟨data', hv, hst⟩ := hkey
      rw [hst] at h
      dsimp only [Option.bind_some] at h
      split at h
      · cases h
      · cases h
        exact ⟨v, hc v data hv⟩

theorem Inv.getManyT (hinv : Inv c s) (hc : c.Inverts) {keys : List Key} (hk : k ∈ keys) :
    ∃ out, getManyT c s.storage keys = (s.storage, .ok out) ∧
      out.lookup k = (positive (c := c) s.storage k).bind c.deserialize := by
  have hdecodes : ∀ p ∈ getManyRaw c s.storage keys, ∃ v, c.deserialize p.2 = some v := by
    intro p hp
    rw [getManyRaw_eq] at hp
    obtain ⟨key, -, hread⟩ := List.mem_filterMap.mp hp
    obtain ⟨data, hdata, rfl⟩ := Option.map_eq_some_iff.mp hread
    exact hinv.decodes hc hdata
  obtain ⟨out, hout, hlookup⟩ := decodeMany_ok s.storage k hdecodes
  refine ⟨out, hout, ?_⟩
  rw [hlookup, getManyRaw_eq, lookup_filterMap, if_pos (mem_uniqueKeys hk)]

variable (c)

/-- All reads report the key with this value, without running a fallback. -/
structure ReadsBack (st : Storage) (k : Key) (v : α) : Prop where
  «exists» : «exists» c st k = true
  get : (get c st k).2 = .ok v
  getMany : ∀ keys, k ∈ keys → ∃ out, (getManyT c st keys).2 = .ok out ∧ out.lookup k = some v
  getWithFallback : ∀ fb, (getWithFallback c st false k fb).2 = (.ok v, false)

/-- A key is reported missing without a run of the fallback only after a negative entry. -/
def MissesOnlyNegative (s : State α) (k : Key) : Prop :=
  ∀ fb, (getWithFallback c s.storage false k fb).2 = (.error .missing, false) →
    s.last k = some .negative

variable {c}

theorem Inv.readsBack (hinv : Inv c s) (hc : c.Inverts) {v : α}
    (hlast : s.last k = some (.value v)) (hv : c.serialize v ≠ some negativeSentinel) :
    ReadsBack c s.storage k v := by
  have hkey := hinv k
  rw [hlast] at hkey
  obtain ⟨data, hdata, hst⟩ := hkey
  have hneg : isNegativeSentinel data = false := beq_false_of_ne fun h => hv (by rw [hdata, h])
  have hdecode := hc v data hdata
  refine ⟨?_, ?_, ?_, ?_⟩
  · simp [«exists», hst, hneg]
  · simp [get, hst, hneg, hdecode]
  · intro keys hk
    obtain ⟨out, hout, hlookup⟩ := hinv.getManyT hc hk
    refine ⟨out, by rw [hout], ?_⟩
    rw [hlookup]
    simp [positive, hst, hneg, hdecode]
  · intro fb
    simp [getWithFallback, lookupRaw, hst, hneg, hdecode]

theorem storage_of_missing {fb : Fallback α}
    (h : (getWithFallback c st false k fb).2 = (.error .missing, false)) :
    st (c.effectiveKey k) = some negativeSentinel := by
  unfold getWithFallback lookupRaw at h
  cases hd : st (c.effectiveKey k) with
  | none => simp [hd] at h
  | some data =>
    cases hneg : isNegativeSentinel data with
    | true => rw [eq_of_beq hneg]
    | false =>
      cases hv : c.deserialize data with
      | some v => simp [hd, hneg, hv] at h
      | none => cases hopen : c.failOpen <;> simp [hd, hneg, hv, hopen] at h

theorem Inv.missesOnlyNegative (hinv : Inv c s)
    (hlast : ∀ v, s.last k = some (.value v) → c.serialize v ≠ some negativeSentinel) :
    MissesOnlyNegative c s k := by
  intro fb hmissing
  have hst := storage_of_missing hmissing
  have hkey := hinv k
  rw [hst] at hkey
  cases he : s.last k with
  | none =>
    rw [he] at hkey
    cases hkey
  | some e =>
    cases e with
    | negative => rfl
    | value v =>
      rw [he] at hkey
      obtain ⟨data, hdata, heq⟩ := hkey
      exact absurd (hdata.trans heq.symm) (hlast v he)

/-- After every run, a key is read back as it was last written, and reported missing without a run
of the fallback only after a negative entry, exactly if its last write is no value that is
serialized to the single zero byte. -/
theorem reads_back_iff (hc : c.Inverts) (ops : List (Op α)) (k : Key) :
    ((∀ v, (run c ops).last k = some (.value v) → ReadsBack c (run c ops).storage k v) ∧
        MissesOnlyNegative c (run c ops) k) ↔
      ∀ v, (run c ops).last k = some (.value v) → c.serialize v ≠ some negativeSentinel := by
  have hinv := inv_run (c := c) ops
  constructor
  · rintro ⟨hreads, -⟩ v hlast hsentinel
    have hexists := (hreads v hlast).exists
    have hkey := hinv k
    rw [hlast] at hkey
    obtain ⟨data, hdata, hst⟩ := hkey
    obtain rfl : data = negativeSentinel := Option.some.inj (hdata.symm.trans hsentinel)
    simp [«exists», hst, isNegativeSentinel] at hexists
  · exact fun hlast =>
      ⟨fun v hv => hinv.readsBack hc hv (hlast v hv), hinv.missesOnlyNegative hlast⟩

/-- Small numbers as MessagePack writes them: each is its own byte. -/
def fixint : Config (Fin 128) where
  serialize n := some [UInt8.ofNat n]
  deserialize
    | [b] => if h : b.toNat < 128 then some ⟨b.toNat, h⟩ else none
    | _ => none
  keyVersion := none
  keyNamespace := none
  negativeTtl := true
  failOpen := false
  isolated := false

theorem fixint_inverts : fixint.Inverts := by
  intro n data h
  cases h
  revert n
  decide

def counter : Key := ⟨[0x63], by decide⟩

theorem reads_back_iff_one : fixint.Inverts ∧
    (((∀ v, (run fixint [.save counter 1]).last counter = some (.value v) →
          ReadsBack fixint (run fixint [.save counter 1]).storage counter v) ∧
        MissesOnlyNegative fixint (run fixint [.save counter 1]) counter) ↔
      ∀ v, (run fixint [.save counter 1]).last counter = some (.value v) →
        fixint.serialize v ≠ some negativeSentinel) :=
  ⟨fixint_inverts, reads_back_iff fixint_inverts _ _⟩

/-- A stored zero is taken for a negative entry: no read finds it, and the fallback is not run. -/
theorem zero_taken_for_negative :
    (run fixint [.save counter 0]).last counter = some (.value 0) ∧
      «exists» fixint (run fixint [.save counter 0]).storage counter = false ∧
      (get fixint (run fixint [.save counter 0]).storage counter).2 = .error .missing ∧
      (getManyT fixint (run fixint [.save counter 0]).storage [counter]).2 = .ok [] ∧
      (getWithFallback fixint (run fixint [.save counter 0]).storage false counter (.value 0)).2 =
        (.error .missing, false) :=
  ⟨rfl, rfl, rfl, rfl, rfl⟩

end GoAtlas.Cache.ReadBack
