import GoAtlas.Lib.Bytes

/-!
# Length-prefixed strings

A frame is the length of a part in decimal, a colon, and the part. Frames in a row can be taken
apart again, so distinct tuples never give the same string.
-/

namespace GoAtlas.Lib

def decimal (n : Nat) : Bytes := (Nat.toDigits 10 n).map Char.toUInt8

def colon : UInt8 := 58

def frame (part : Bytes) : Bytes := decimal part.length ++ colon :: part

def frames (parts : List Bytes) : Bytes := (parts.map frame).flatten

theorem ofNat_toUInt8_of_isDigit {c : Char} (h : c.isDigit = true) :
    Char.ofNat c.toUInt8.toNat = c := by
  have hc : c.val.toNat < 256 := by
    simp only [Char.isDigit, Bool.and_eq_true, decide_eq_true_eq] at h
    have := UInt32.le_iff_toNat_le.mp h.2
    exact this.trans_lt (by decide)
  have hval : c.toUInt8.toNat = c.toNat := by
    rw [Char.toUInt8, UInt32.toNat_toUInt8]
    exact Nat.mod_eq_of_lt hc
  rw [hval, Char.ofNat_toNat]

theorem isDigit_of_mem_toDigits {n : Nat} {c : Char} (h : c ∈ Nat.toDigits 10 n) :
    c.isDigit = true :=
  Nat.isDigit_of_mem_toDigits (by decide) (by decide) h

theorem decimal_inj {m n : Nat} (h : decimal m = decimal n) : m = n := by
  have hback : ∀ k, (decimal k).map (fun b => Char.ofNat b.toNat) = Nat.toDigits 10 k := by
    intro k
    rw [decimal, List.map_map]
    conv_rhs => rw [← List.map_id (Nat.toDigits 10 k)]
    exact List.map_congr_left fun c hc => ofNat_toUInt8_of_isDigit (isDigit_of_mem_toDigits hc)
  have hdigits : Nat.toDigits 10 m = Nat.toDigits 10 n := by rw [← hback m, ← hback n, h]
  have hm : Nat.ofDigitChars 10 (Nat.toDigits 10 m) 0 = m :=
    Nat.ofDigitChars_toDigits (by decide) (by decide)
  have hn : Nat.ofDigitChars 10 (Nat.toDigits 10 n) 0 = n :=
    Nat.ofDigitChars_toDigits (by decide) (by decide)
  rw [← hm, ← hn, hdigits]

theorem colon_notMem_decimal (n : Nat) : colon ∉ decimal n := by
  intro h
  obtain ⟨c, hc, heq⟩ := List.mem_map.mp h
  have hdigit := isDigit_of_mem_toDigits hc
  have hback := ofNat_toUInt8_of_isDigit hdigit
  rw [heq] at hback
  rw [← hback] at hdigit
  exact absurd hdigit (by decide)

theorem cut_inj {α : Type} {sep : α} {a b r r' : List α} (ha : sep ∉ a) (hb : sep ∉ b)
    (h : a ++ sep :: r = b ++ sep :: r') : a = b ∧ r = r' := by
  induction a generalizing b with
  | nil =>
    cases b with
    | nil => simpa using h
    | cons c b =>
      simp only [List.nil_append, List.cons_append, List.cons.injEq] at h
      exact absurd (h.1 ▸ List.mem_cons_self) hb
  | cons c a ih =>
    cases b with
    | nil =>
      simp only [List.nil_append, List.cons_append, List.cons.injEq] at h
      exact absurd (h.1 ▸ List.mem_cons_self) ha
    | cons d b =>
      simp only [List.cons_append, List.cons.injEq] at h
      obtain ⟨rfl, hrest⟩ := h
      obtain ⟨rfl, rfl⟩ :=
        ih (List.not_mem_of_not_mem_cons ha) (List.not_mem_of_not_mem_cons hb) hrest
      exact ⟨rfl, rfl⟩

theorem decimal_colon_inj {m n : Nat} {r r' : Bytes}
    (h : decimal m ++ colon :: r = decimal n ++ colon :: r') :
    m = n ∧ r = r' := by
  obtain ⟨hdecimal, hrest⟩ := cut_inj (colon_notMem_decimal m) (colon_notMem_decimal n) h
  exact ⟨decimal_inj hdecimal, hrest⟩

theorem frame_append_inj {part part' r r' : Bytes} (h : frame part ++ r = frame part' ++ r') :
    part = part' ∧ r = r' := by
  simp only [frame, List.append_assoc, List.cons_append] at h
  obtain ⟨hlen, hrest⟩ := decimal_colon_inj h
  exact List.append_inj hrest hlen

theorem frames_inj {parts parts' : List Bytes} (h : frames parts = frames parts') :
    parts = parts' := by
  induction parts generalizing parts' with
  | nil =>
    cases parts' with
    | nil => rfl
    | cons part' parts' => simp [frames, frame] at h
  | cons part parts ih =>
    cases parts' with
    | nil => simp [frames, frame] at h
    | cons part' parts' =>
      simp only [frames, List.map_cons, List.flatten_cons] at h
      obtain ⟨rfl, hrest⟩ := frame_append_inj h
      rw [ih hrest]

end GoAtlas.Lib
