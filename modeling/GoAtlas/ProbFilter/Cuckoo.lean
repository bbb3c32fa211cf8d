import Mathlib.Data.Fintype.Basic
import GoAtlas.Lib.Machine
import GoAtlas.Lib.SlotTable

/-!
# The in-memory cuckoo filter

Eight-bit fingerprints in buckets of four slots; a fingerprint has two candidate buckets, each found
from the other and the fingerprint alone. An insert without a free slot moves fingerprints to their
other bucket for at most `maxKicks` steps, and undoes the walk if it finds no room. The random
choices of the walk are arguments.
-/

namespace GoAtlas.ProbFilter.Cuckoo

open Lib SlotTable

abbrev bucketSize : Nat := 4
def maxKicks : Nat := 500
def fingerprintShift : UInt64 := 56
def fingerprintValues : UInt8 := 255
def altIndexMix : UInt32 := 0x9e3779b1

/-- `0` marks an empty slot. -/
abbrev Fingerprint := UInt8

abbrev Bucket := Fin bucketSize → Fingerprint

namespace Bucket

def slotOf? (b : Bucket) (fp : Fingerprint) : Option (Fin bucketSize) :=
  (List.finRange bucketSize).find? fun s => b s == fp

def has (b : Bucket) (fp : Fingerprint) : Bool := (b.slotOf? fp).isSome

end Bucket

/-- `bits.Len64`. -/
def len64 (n : Nat) : Nat := if n = 0 then 0 else n.log2 + 1

structure Kick (ι : Type) where
  bucket : ι
  slot : Fin bucketSize
  prev : Fingerprint

/-- What an insert draws at random: whether the walk starts in the second candidate bucket, and the
slot of each kick. -/
structure Choices where
  second : Bool
  slot : Nat → Fin bucketSize

/-- What a filter keeps from its construction on: the mask of its bucket indices, and
`maphash.String` at its seed. -/
structure Layout where
  mask : Nat
  pow : ∃ k, mask + 1 = 2 ^ k
  hash : String → UInt64

namespace Layout

/-- The layout of `newCuckooFilter`. -/
def new (capacity : UInt64) (hash : String → UInt64) : Layout :=
  let n := max ((capacity + 4 - 1) / 4).toNat 1
  have hpos : 0 < 2 ^ len64 (n - 1) := Nat.two_pow_pos _
  { mask := 2 ^ len64 (n - 1) - 1
    pow := ⟨len64 (n - 1), Nat.sub_add_cancel hpos⟩
    hash }

variable (l : Layout)

abbrev Index := Fin (l.mask + 1)

/-- The bucket at the bits of `n` that the mask keeps. -/
def masked (n : Nat) : l.Index := ⟨n &&& l.mask, Nat.lt_succ_of_le Nat.and_le_right⟩

def alt (i : l.Index) (fp : Fingerprint) : l.Index :=
  l.masked (i.val ^^^ (fp.toUInt32 * altIndexMix).toNat)

def fingerprint (value : String) : Fingerprint :=
  (l.hash value >>> fingerprintShift).toUInt8 % fingerprintValues + 1

def home (value : String) : l.Index := l.masked (l.hash value).toNat

def locate (value : String) : Fingerprint × l.Index × l.Index :=
  (l.fingerprint value, l.home value, l.alt (l.home value) (l.fingerprint value))

end Layout

structure CuckooFilter (l : Layout) where
  buckets : l.Index → Bucket
  count : Nat

def newCuckooFilter (capacity : UInt64) (hash : String → UInt64) :
    CuckooFilter (Layout.new capacity hash) where
  buckets _ _ := 0
  count := 0

namespace CuckooFilter

variable {l : Layout} (f : CuckooFilter l)

def lookup (value : String) : Bool :=
  let (fp, i1, i2) := l.locate value
  (f.buckets i1).has fp || (f.buckets i2).has fp

def store (i : l.Index) (s : Fin bucketSize) (fp : Fingerprint) : CuckooFilter l :=
  { f with buckets := write f.buckets i s fp }

/-- `bucket.put`: takes the first empty slot of the bucket. -/
def put (i : l.Index) (fp : Fingerprint) : Option (CuckooFilter l) :=
  ((f.buckets i).slotOf? 0).map fun s => f.store i s fp

/-- `bucket.clear`: empties the first slot of the bucket that holds the fingerprint. -/
def clear (i : l.Index) (fp : Fingerprint) : Option (CuckooFilter l) :=
  ((f.buckets i).slotOf? fp).map fun s => f.store i s 0

/-- Writes back what the kicks displaced, the last one first. -/
def undo (kicks : List (Kick l.Index)) : CuckooFilter l :=
  kicks.reverse.foldl (fun g k => g.store k.bucket k.slot k.prev) f

/-- The relocations of an insert, at most `n` more of them; `kicks` is the log of those made. -/
def walk (slot : Nat → Fin bucketSize) :
    Nat → CuckooFilter l → l.Index → Fingerprint → List (Kick l.Index) → CuckooFilter l × Bool
  | 0, f, _, _, kicks => (f.undo kicks, false)
  | n + 1, f, i, fp, kicks =>
    let s := slot kicks.length
    let victim := f.buckets i s
    let g := f.store i s fp
    match g.put (l.alt i victim) victim with
    | some g' => ({ g' with count := g'.count + 1 }, true)
    | none => walk slot n g (l.alt i victim) victim (kicks ++ [⟨i, s, victim⟩])

def insert (value : String) (c : Choices) : CuckooFilter l × Bool :=
  let (fp, i1, i2) := l.locate value
  match (f.put i1 fp).or (f.put i2 fp) with
  | some g => ({ g with count := g.count + 1 }, true)
  | none => walk c.slot maxKicks f (if c.second then i2 else i1) fp []

def remove (value : String) : CuckooFilter l × Bool :=
  let (fp, i1, i2) := l.locate value
  match (f.clear i1 fp).or (f.clear i2 fp) with
  | some g => ({ g with count := g.count - 1 }, true)
  | none => (f, false)

end CuckooFilter

/-! ## The storage -/

/-- What a call did, for one value. -/
inductive Event where
  | inserted (value : String) (ok : Bool)
  | removed (value : String) (found : Bool)
  deriving DecidableEq

/-- The filter behind the storage's lock, and what was done to it. -/
structure Storage (l : Layout) where
  filter : CuckooFilter l
  log : List Event

namespace Storage

def new (capacity : UInt64) (hash : String → UInt64) : Storage (Layout.new capacity hash) :=
  ⟨newCuckooFilter capacity hash, []⟩

variable {l : Layout}

def mightExist (s : Storage l) (value : String) : Bool := s.filter.lookup value

def insert (s : Storage l) (value : String) (c : Choices) : Storage l × Bool :=
  let (g, ok) := s.filter.insert value c
  (⟨g, s.log ++ [.inserted value ok]⟩, ok)

/-- Stops at the first value that does not fit; `false` is `ErrFilterFull`. -/
def insertAll : Storage l → List (String × Choices) → Storage l × Bool
  | s, [] => (s, true)
  | s, (value, c) :: rest =>
    match s.insert value c with
    | (s', true) => insertAll s' rest
    | (s', false) => (s', false)

def delete (s : Storage l) (value : String) : Storage l × Bool :=
  let (g, found) := s.filter.remove value
  (⟨g, s.log ++ [.removed value found]⟩, found)

inductive Action where
  | add (value : String) (c : Choices)
  | addBatch (values : List (String × Choices))
  | delete (value : String)

def step (s : Storage l) : Action → Storage l
  | .add value c => (s.insert value c).1
  | .addBatch values => (s.insertAll values).1
  | .delete value => (s.delete value).1

def machine : Machine (Storage l) Action := ⟨fun s a => some (s.step a)⟩

end Storage

end GoAtlas.ProbFilter.Cuckoo
