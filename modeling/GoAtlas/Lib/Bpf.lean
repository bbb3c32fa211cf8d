import Mathlib.Data.List.Basic

/-!
# Classic BPF

The part of classic BPF that a filter without memory and index register uses: loads of a word of the
data, comparisons of the accumulator with a constant, and returns. Jumps are relative and go forward
only, so a run is one pass over the program: it carries the number of instructions that a jump still
skips.
-/

namespace GoAtlas.Lib.Bpf

def LD : UInt16 := 0x00
def JMP : UInt16 := 0x05
def RET : UInt16 := 0x06
def W : UInt16 := 0x00
def ABS : UInt16 := 0x20
def JEQ : UInt16 := 0x10
def JGT : UInt16 := 0x20
def JGE : UInt16 := 0x30
def K : UInt16 := 0x00

structure SockFilter where
  code : UInt16
  jt : UInt8 := 0
  jf : UInt8 := 0
  k : UInt32
  deriving DecidableEq

/-- What an instruction does with the accumulator: go on with another one, skip so many
instructions, or return a value. -/
inductive Effect where
  | load (a : UInt32)
  | skip (n : Nat)
  | ret (k : UInt32)

def SockFilter.branch (i : SockFilter) (c : Bool) : Effect := .skip (if c then i.jt else i.jf).toNat

/-- `none` for the instructions that are not modelled. -/
def SockFilter.effect (i : SockFilter) (data : UInt32 → UInt32) (a : UInt32) : Option Effect :=
  if i.code = LD ||| W ||| ABS then some (.load (data i.k))
  else if i.code = JMP ||| JEQ ||| K then some (i.branch (a = i.k))
  else if i.code = JMP ||| JGT ||| K then some (i.branch (i.k < a))
  else if i.code = JMP ||| JGE ||| K then some (i.branch (i.k ≤ a))
  else if i.code = RET ||| K then some (.ret i.k)
  else none

/-- The value the program returns when `skip` instructions are still to be skipped; `none` if it
runs off the program's end. -/
def exec (data : UInt32 → UInt32) : List SockFilter → (skip : Nat) → (a : UInt32) → Option UInt32
  | [], _, _ => none
  | _ :: prog, skip + 1, a => exec data prog skip a
  | i :: prog, 0, a =>
    match i.effect data a with
    | some (.load a) => exec data prog 0 a
    | some (.skip n) => exec data prog n a
    | some (.ret k) => some k
    | none => none

def run (prog : List SockFilter) (data : UInt32 → UInt32) : Option UInt32 := exec data prog 0 0

section Instructions

variable {data : UInt32 → UInt32} {prog : List SockFilter} {a : UInt32}

theorem exec_skip {block : List SockFilter} {n : Nat} (h : block.length = n) :
    exec data (block ++ prog) n a = exec data prog 0 a := by
  subst h
  induction block with
  | nil => rfl
  | cons i block ih => exact ih

@[simp] theorem exec_ld (k : UInt32) (jt jf : UInt8) :
    exec data (⟨LD ||| W ||| ABS, jt, jf, k⟩ :: prog) 0 a = exec data prog 0 (data k) := rfl

@[simp] theorem exec_jeq (k : UInt32) (jt jf : UInt8) :
    exec data (⟨JMP ||| JEQ ||| K, jt, jf, k⟩ :: prog) 0 a =
      exec data prog (if a = k then jt.toNat else jf.toNat) a := by
  show exec data prog (if decide (a = k) = true then jt else jf).toNat a = _
  by_cases h : a = k <;> simp [h]

@[simp] theorem exec_jgt (k : UInt32) (jt jf : UInt8) :
    exec data (⟨JMP ||| JGT ||| K, jt, jf, k⟩ :: prog) 0 a =
      exec data prog (if k < a then jt.toNat else jf.toNat) a := by
  show exec data prog (if decide (k < a) = true then jt else jf).toNat a = _
  by_cases h : k < a <;> simp [h]

@[simp] theorem exec_jge (k : UInt32) (jt jf : UInt8) :
    exec data (⟨JMP ||| JGE ||| K, jt, jf, k⟩ :: prog) 0 a =
      exec data prog (if k ≤ a then jt.toNat else jf.toNat) a := by
  show exec data prog (if decide (k ≤ a) = true then jt else jf).toNat a = _
  by_cases h : k ≤ a <;> simp [h]

end Instructions

end GoAtlas.Lib.Bpf
