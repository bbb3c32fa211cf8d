import GoAtlas.Lib.Bytes

/-!
# White space around a text

`strings.TrimSpace` on UTF-8 texts: the encodings of white space are stripped from both ends.
-/

namespace GoAtlas.Lib

def comma : UInt8 := 44

/-- The UTF-8 encodings of `unicode.IsSpace`. -/
def spaces : List Bytes :=
  [[0x20], [0x09], [0x0a], [0x0b], [0x0c], [0x0d], [0xc2, 0x85], [0xc2, 0xa0], [0xe1, 0x9a, 0x80],
    [0xe2, 0x80, 0x80], [0xe2, 0x80, 0x81], [0xe2, 0x80, 0x82], [0xe2, 0x80, 0x83],
    [0xe2, 0x80, 0x84], [0xe2, 0x80, 0x85], [0xe2, 0x80, 0x86], [0xe2, 0x80, 0x87],
    [0xe2, 0x80, 0x88], [0xe2, 0x80, 0x89], [0xe2, 0x80, 0x8a], [0xe2, 0x80, 0xa8],
    [0xe2, 0x80, 0xa9], [0xe2, 0x80, 0xaf], [0xe2, 0x81, 0x9f], [0xe3, 0x80, 0x80]]

/-- What follows the text in front. -/
def strip : Bytes → Bytes → Option Bytes
  | [], s => some s
  | a :: as, b :: bs => if a = b then strip as bs else none
  | _ :: _, [] => none

/-- Strip the texts from the front as long as there is one. -/
def trimFront (texts : List Bytes) : Nat → Bytes → Bytes
  | 0, s => s
  | n + 1, s =>
    match texts.findSome? fun text => strip text s with
    | some rest => trimFront texts n rest
    | none => s

def trimSpace (s : Bytes) : Bytes :=
  let s := trimFront spaces s.length s
  (trimFront (spaces.map List.reverse) s.length s.reverse).reverse

theorem strip_append (pre s : Bytes) : strip pre (pre ++ s) = some s := by
  induction pre with
  | nil => rfl
  | cons a pre ih => simpa [strip] using ih

theorem length_of_strip {text s rest : Bytes} (h : strip text s = some rest) :
    rest.length ≤ s.length := by
  induction text generalizing s with
  | nil =>
    cases h
    exact le_rfl
  | cons a text ih =>
    cases s with
    | nil => cases h
    | cons b s =>
      unfold strip at h
      split at h
      · exact (ih h).trans (Nat.le_succ _)
      · cases h

variable {texts : List Bytes}

theorem trimFront_of_none {s : Bytes}
    (h : (texts.findSome? fun text => strip text s) = none) (n : Nat) :
    trimFront texts n s = s := by
  cases n with
  | zero => rfl
  | succ n => rw [trimFront, h]

theorem trimFront_append {ws : Bytes} (s : Bytes)
    (h : ∀ b ∈ ws, ∀ s, (texts.findSome? fun text => strip text (b :: s)) = some s) :
    trimFront texts (ws ++ s).length (ws ++ s) = trimFront texts s.length s := by
  induction ws with
  | nil => rfl
  | cons b ws ih =>
    rw [List.cons_append, List.length_cons, trimFront, h b List.mem_cons_self]
    exact ih fun c hc => h c (List.mem_cons_of_mem b hc)

theorem mem_spaces_singleton {b : UInt8} (hb : [b] ∈ spaces) :
    b = 0x20 ∨ b = 0x09 ∨ b = 0x0a ∨ b = 0x0b ∨ b = 0x0c ∨ b = 0x0d := by
  simpa [spaces] using hb

theorem trimFront_spaces {ws : Bytes} (hws : ∀ b ∈ ws, [b] ∈ spaces) (s : Bytes) :
    trimFront spaces (ws ++ s).length (ws ++ s) = trimFront spaces s.length s := by
  refine trimFront_append s fun b hb s => ?_
  rcases mem_spaces_singleton (hws b hb) with rfl | rfl | rfl | rfl | rfl | rfl <;> rfl

/-- A printable byte that is no space. -/
def Solid (c : UInt8) : Prop := 33 ≤ c ∧ c < 128

instance (c : UInt8) : Decidable (Solid c) := inferInstanceAs (Decidable (33 ≤ c ∧ c < 128))

theorem trimFront_of_solid {s : Bytes} (n : Nat)
    (htexts : ∀ text ∈ texts, ∃ a ∈ text.head?, ¬ Solid a) (hs : ∀ c ∈ s, Solid c) :
    trimFront texts n s = s := by
  refine trimFront_of_none (List.findSome?_eq_none_iff.mpr fun text htext => ?_) n
  obtain ⟨a, ha, hnot⟩ := htexts text htext
  rw [← List.cons_head?_tail ha]
  cases s with
  | nil => rfl
  | cons c s =>
    have hne : a ≠ c := fun heq => hnot (heq ▸ hs c List.mem_cons_self)
    rw [strip, if_neg hne]

theorem trimSpace_of_solid {s : Bytes} (hs : ∀ c ∈ s, Solid c) : trimSpace s = s := by
  have hrev : ∀ c ∈ s.reverse, Solid c := fun c hc => hs c (List.mem_reverse.mp hc)
  simp only [trimSpace, trimFront_of_solid s.length (by decide : ∀ text ∈ spaces, _) hs,
    trimFront_of_solid s.length (by decide : ∀ text ∈ spaces.map List.reverse, _) hrev,
    List.reverse_reverse]

end GoAtlas.Lib
